import KernelPid.Lifetime.Nesting

/-!
# No process escapes its namespace

What processes do is a sequence of the calls that `Lifetime.step` has (`Leads`), so no count
goes wrong and no namespace is used after it was freed (`processes_refine`). A process holds
the namespace that its `nsproxy` names, and that one stays below its own: `pidns_install` and
`copy_pid_ns` see to it (`below_forefathers`).
-/

namespace KernelPid.Lifetime

open Runs Tally Ancestors

variable {K K' : Objects} {n m active : NsAddr} {p : PidAddr} {maxPidNsLevel : ℕ} {w w' : World}
  {s s' : ProcSys} {c : Proc}

/-! ## Runs of calls -/

/-- Some calls lead from `w` to `w'`. -/
def Leads (maxPidNsLevel : ℕ) (w w' : World) : Prop := ∃ bs, run (step maxPidNsLevel) w bs = .ok w'

theorem Leads.refl (w : World) : Leads maxPidNsLevel w w := ⟨[], rfl⟩

theorem Leads.trans {w'' : World} (h : Leads maxPidNsLevel w w') (h' : Leads maxPidNsLevel w' w'') :
    Leads maxPidNsLevel w w'' := by
  obtain ⟨as, has⟩ := h
  obtain ⟨bs, hbs⟩ := h'
  exact ⟨as ++ bs, by rw [run_append, has, ok_bind, hbs]⟩

theorem Leads.of_step {a : Act} (h : step maxPidNsLevel w a = .ok w') :
    Leads maxPidNsLevel w w' := by
  refine ⟨[a], ?_⟩
  simp only [run, h, ok_bind]

/-- The counts stay right, and what is in memory stays in its place. -/
theorem World.Grown.leads (h : w.Grown maxPidNsLevel) (hleads : Leads maxPidNsLevel w w') :
    w'.Grown maxPidNsLevel ∧ Later w.K w'.K := by
  obtain ⟨bs, hrun⟩ := hleads
  induction bs generalizing w with
  | nil =>
      obtain rfl := Except.ok.inj hrun
      exact ⟨h, .refl _⟩
  | cons a bs ih =>
      obtain ⟨w₁, hstep, h₁⟩ := h.step a
      simp only [run, hstep, ok_bind] at hrun
      obtain ⟨h', hlater⟩ := ih h₁ hrun
      exact ⟨h', (step_grows h.toSound hstep).toLater.trans hlater⟩

theorem World.Grown.getPidNs (h : w.Grown maxPidNsLevel) (hn : w.K.IsUsed n) :
    ∃ K', w.K.getPidNs n = .ok K' ∧
      Leads maxPidNsLevel w { w with K := K', nsRefs := addRef w.nsRefs n } := by
  obtain ⟨K', hrun, -⟩ := h.counted.getPidNs hn
  refine ⟨K', hrun, .of_step (a := .getPidNs n) ?_⟩
  simp only [Lifetime.step, if_pos hn, hrun, ok_bind]

theorem World.Grown.putPidNs (h : w.Grown maxPidNsLevel) (hn : 0 < w.nsRefs n) :
    ∃ K', w.K.putPidNs n = .ok K' ∧
      Leads maxPidNsLevel w { w with K := K', nsRefs := dropRef w.nsRefs n } := by
  have hheld := h.counted
  rw [← addRef_dropRef hn] at hheld
  obtain ⟨K', hrun, -⟩ := hheld.putPidNs
  refine ⟨K', hrun, .of_step (a := .putPidNs n) ?_⟩
  simp only [Lifetime.step, if_pos hn, hrun, ok_bind]

/-- A new namespace, if there is one, is a child of the one that was given. -/
theorem World.Grown.createPidNamespace (h : w.Grown maxPidNsLevel) (hn : w.K.IsUsed n)
    (made : Bool) :
    ∃ K' o, w.K.createPidNamespace maxPidNsLevel n made = .ok (K', o) ∧
      Leads maxPidNsLevel w { w with K := K', nsRefs := o.elim w.nsRefs (addRef w.nsRefs) } ∧
      ∀ m, o = some m → K'.parent m = some n := by
  obtain ⟨K', o, hrun, -⟩ := h.counted.createPidNamespace maxPidNsLevel hn h.context made
  refine ⟨K', o, hrun, ?_, fun m hm => ?_⟩
  · apply Leads.of_step (a := .createPidNamespace n made)
    simp only [Lifetime.step, if_pos hn, hrun, ok_bind]
    cases o <;> rfl
  · subst hm
    obtain ⟨d, -, hrun⟩ := bind_eq_ok.mp hrun
    split at hrun
    · simp at hrun
    · split at hrun
      · simp at hrun
      · obtain ⟨K₁, -, hdone⟩ := bind_eq_ok.mp hrun
        obtain ⟨rfl, hm⟩ := Prod.mk.inj (Except.ok.inj hdone)
        obtain rfl := Option.some.inj hm
        show (Function.update K₁.ns K₁.nsBrk _ K₁.nsBrk).bind _ = some n
        rw [Function.update_self]
        rfl

/-- A new pid, if there is one, is in the namespace that was given. -/
theorem World.Grown.allocPid (h : w.Grown maxPidNsLevel) (hn : w.K.IsUsed n) (adding : Bool) :
    ∃ K' o, w.K.allocPid n adding = .ok (K', o) ∧
      Leads maxPidNsLevel w { w with K := K', live := o.elim w.live fun p => p :: w.live } ∧
      ∀ p, o = some p → K'.pid p = some ⟨1, n⟩ ∧ p = w.K.pidBrk ∧ K'.pidBrk = p + 1 := by
  obtain ⟨K', o, hrun, -⟩ := h.counted.allocPid hn h.context adding
  refine ⟨K', o, hrun, ?_, fun p hp => ?_⟩
  · apply Leads.of_step (a := .allocPid n adding)
    simp only [Lifetime.step, if_pos hn, hrun, ok_bind]
    cases o <;> rfl
  · subst hp
    obtain ⟨K₁, hget, hrun⟩ := bind_eq_ok.mp hrun
    cases adding with
    | false =>
        obtain ⟨K₂, -, hdone⟩ := bind_eq_ok.mp hrun
        simp at hdone
    | true =>
        obtain ⟨rfl, hp⟩ := Prod.mk.inj (Except.ok.inj hrun)
        obtain rfl := Option.some.inj hp
        exact ⟨Function.update_self _ _ _, (getPidNs_same hget).pidBrk, rfl⟩

/-- A pid that was not freed is in memory, and its namespace is used. -/
theorem World.Grown.live (h : w.Grown maxPidNsLevel) (hp : p ∈ w.live) :
    ∃ d, w.K.pid p = some d ∧ w.K.taskActivePidNs p = .ok d.ns ∧ w.K.IsUsed d.ns := by
  have hpos : 0 < countOf (w.K.pid p) := by
    have hlive := List.count_pos_iff.mpr hp
    rw [h.counted.count p]
    omega
  cases hd : w.K.pid p with
  | none => simp [hd, countOf] at hpos
  | some d =>
      refine ⟨d, rfl, ?_, World.Holds.used h.toSound (Or.inr ⟨p, d, hd, rfl⟩)⟩
      simp only [Objects.taskActivePidNs, derefPid_eq hd, ok_bind]

theorem World.Grown.used_of_pos (h : w.Grown maxPidNsLevel) (hn : 0 < w.nsRefs n) : w.K.IsUsed n :=
  World.Holds.used h.toSound (Or.inl hn)

/-! ## References of files and processes -/

theorem addRef_apply (refs : ℕ → ℕ) (n m : ℕ) :
    addRef refs n m = refs m + if n = m then 1 else 0 := by
  by_cases hm : n = m
  · subst hm
    rw [addRef_self, if_pos rfl]
  · rw [addRef_of_ne (Ne.symm hm), if_neg hm, Nat.add_zero]

theorem dropRef_apply (refs : ℕ → ℕ) (n m : ℕ) :
    dropRef refs n m = refs m - if n = m then 1 else 0 := by
  by_cases hm : n = m
  · subst hm
    rw [dropRef, Function.update_self, if_pos rfl]
  · rw [dropRef, Function.update_of_ne (Ne.symm hm), if_neg hm, Nat.sub_zero]

theorem addRef_pos (refs : ℕ → ℕ) (n : ℕ) : 0 < addRef refs n n := by
  rw [addRef_self]
  exact Nat.succ_pos _

theorem addRef_pos_of_pos {refs : ℕ → ℕ} {m : ℕ} (h : 0 < refs m) (n : ℕ) :
    0 < addRef refs n m := by
  rw [addRef_apply]
  exact Nat.add_pos_left h _

theorem dropRef_addRef (refs : ℕ → ℕ) (n : ℕ) : dropRef (addRef refs n) n = refs := by
  funext m
  rw [dropRef_apply, addRef_apply, Nat.add_sub_cancel]

/-- A reference that is held can be dropped before another one is taken. -/
theorem dropRef_addRef_comm {refs : ℕ → ℕ} {m : ℕ} (h : 0 < refs m) (n : ℕ) :
    dropRef (addRef refs n) m = addRef (dropRef refs m) n := by
  funext i
  simp only [dropRef_apply, addRef_apply]
  by_cases hi : m = i
  · subst hi
    rw [if_pos rfl]
    omega
  · simp only [if_neg hi, Nat.sub_zero]

/-- The reference of a process to `n`, by its `nsproxy`. -/
def procWeight (n : NsAddr) : Option Proc → ℕ
  | some c => if c.pidNsForChildren = n then 1 else 0
  | none => 0

/-- The children of `c`, whose own namespace is `active`, are made in or below it, and so was `c`
itself in that of its forefathers. -/
def Nested (K : Objects) (c : Proc) (active : NsAddr) : Prop :=
  IsAncestor K.parent c.pidNsForChildren active ∧ ∀ n ∈ c.forefathers, IsAncestor K.parent active n

/-- The invariant of the processes: the references of the callers are those of the files and the
`nsproxy`s, processes have pids, and their namespaces are nested. -/
structure ProcInv (maxPidNsLevel : ℕ) (s : ProcSys) : Prop where
  grown : s.world.Grown maxPidNsLevel
  refs : ∀ n, s.world.nsRefs n = s.files n + tally (procWeight n) s.proc s.world.K.pidBrk
  live : ∀ {p c}, s.proc p = some c → p ∈ s.world.live
  nested : ∀ {p c d}, s.proc p = some c → s.world.K.pid p = some d → Nested s.world.K c d.ns

theorem procInv_init (maxPidNsLevel : ℕ) : ProcInv maxPidNsLevel .init where
  grown := grown_init maxPidNsLevel
  refs _ := rfl
  live h := by simp [ProcSys.init] at h
  nested h := by simp [ProcSys.init] at h

theorem ProcInv.pid_lt (h : ProcInv maxPidNsLevel s) (hc : s.proc p = some c) :
    p < s.world.K.pidBrk := by
  obtain ⟨d, hd, -⟩ := h.grown.live (h.live hc)
  exact h.grown.counted.pid_lt hd

/-- The `nsproxy` of a process holds a namespace. -/
theorem ProcInv.holds (h : ProcInv maxPidNsLevel s) (hc : s.proc p = some c) :
    0 < s.world.nsRefs c.pidNsForChildren := by
  have hle := le_tally (w := procWeight c.pidNsForChildren) (f := s.proc) (h.pid_lt hc)
  have hweight : procWeight c.pidNsForChildren (s.proc p) = 1 := by
    rw [hc]
    exact if_pos rfl
  rw [h.refs]
  omega

theorem ProcInv.file (h : ProcInv maxPidNsLevel s) (hn : 0 < s.files n) : 0 < s.world.nsRefs n := by
  rw [h.refs]
  omega

/-- No process has a pid that is not made yet. -/
theorem ProcInv.tally_eq (h : ProcInv maxPidNsLevel s) {k : ℕ} (hk : s.world.K.pidBrk ≤ k)
    (n : NsAddr) :
    tally (procWeight n) s.proc k = tally (procWeight n) s.proc s.world.K.pidBrk := by
  refine tally_of_le hk fun q hq => ?_
  cases hc : s.proc q with
  | none => rfl
  | some c => exact absurd (h.pid_lt hc) (Nat.not_lt.mpr hq)

theorem Nested.later {c : Proc} {d : NsAddr} (hn : Nested w.K c d) (h : w.Grown maxPidNsLevel)
    (h' : w'.Grown maxPidNsLevel) (hlater : Later w.K w'.K) (hc : w.K.IsUsed c.pidNsForChildren)
    (hc' : w'.K.IsUsed c.pidNsForChildren) : Nested w'.K c d := by
  have hanc := hlater.isAncestor h h' hc hc' hn.1
  have hd := h.used_of_isAncestor hc hn.1
  have hd' := h'.used_of_isAncestor hc' hanc
  exact ⟨hanc, fun a ha => hlater.isAncestor h h' hd hd' (hn.2 a ha)⟩

/-- What has to be shown of a step: what is left when the objects may have changed only as calls
change them. -/
theorem ProcInv.next (h : ProcInv maxPidNsLevel s) (hleads : Leads maxPidNsLevel s.world s'.world)
    (hrefs : ∀ n, s'.world.nsRefs n = s'.files n + tally (procWeight n) s'.proc s'.world.K.pidBrk)
    (hproc : ∀ {p c}, s'.proc p = some c → p ∈ s'.world.live ∧ (s.proc p = some c ∨
      ∀ d, s'.world.K.pid p = some d → Nested s'.world.K c d.ns)) : ProcInv maxPidNsLevel s' := by
  obtain ⟨h', hlater⟩ := h.grown.leads hleads
  refine ⟨h', hrefs, fun hc => (hproc hc).1, fun {p c d'} hc hd' => ?_⟩
  obtain ⟨-, hold | hnew⟩ := hproc hc
  · obtain ⟨d, hd, heq⟩ := hlater.pid (h.pid_lt hold) hd'
    rw [heq]
    refine (h.nested hold hd).later h.grown h' hlater (h.grown.used_of_pos (h.holds hold)) ?_
    have hpos : 0 < s'.world.nsRefs c.pidNsForChildren := by
      have hle := le_tally (w := procWeight c.pidNsForChildren) (f := s'.proc)
        (h'.counted.pid_lt hd')
      have hweight : procWeight c.pidNsForChildren (s'.proc p) = 1 := by
        rw [hc]
        exact if_pos rfl
      rw [hrefs]
      omega
    exact h'.used_of_pos hpos
  · exact hnew d' hd'

/-! ## Changes -/

/-- The references of the processes do not depend on how many pids there are. -/
theorem ProcInv.refs_later (h : ProcInv maxPidNsLevel s) {w : World}
    (hleads : Leads maxPidNsLevel s.world w) (n : NsAddr) :
    s.world.nsRefs n = s.files n + tally (procWeight n) s.proc w.K.pidBrk := by
  rw [h.tally_eq (h.grown.leads hleads).2.pidBrk]
  exact h.refs n

theorem ProcInv.setK (h : ProcInv maxPidNsLevel s)
    (hleads : Leads maxPidNsLevel s.world (s.setK K).world) : ProcInv maxPidNsLevel (s.setK K) :=
  h.next hleads (h.refs_later hleads) fun hc => ⟨h.live hc, Or.inl hc⟩

theorem ProcInv.openFile (h : ProcInv maxPidNsLevel s)
    (hleads : Leads maxPidNsLevel s.world (s.openFile K n).world) :
    ProcInv maxPidNsLevel (s.openFile K n) := by
  refine h.next hleads (fun m => ?_) fun hc => ⟨h.live hc, Or.inl hc⟩
  have hrefs := h.refs_later hleads m
  show addRef s.world.nsRefs n m = addRef s.files n m + tally (procWeight m) s.proc K.pidBrk
  rw [addRef_apply, addRef_apply, hrefs]
  exact Nat.add_right_comm _ _ _

/-- The process at `p` gets another `nsproxy`, or none. -/
theorem ProcInv.tally_update (h : ProcInv maxPidNsLevel s) (hc : s.proc p = some c) {w : World}
    (hleads : Leads maxPidNsLevel s.world w) (o : Option Proc) (m : NsAddr) :
    s.files m + tally (procWeight m) (Function.update s.proc p o) w.K.pidBrk +
      (if c.pidNsForChildren = m then 1 else 0) = s.world.nsRefs m + procWeight m o := by
  have hlt := lt_of_lt_of_le (h.pid_lt hc) (h.grown.leads hleads).2.pidBrk
  have htally := Tally.tally_update (w := procWeight m) (f := s.proc) hlt o
  rw [hc] at htally
  have hrefs := h.refs_later hleads m
  simp only [procWeight] at htally ⊢
  omega

theorem ProcInv.setNsproxy (h : ProcInv maxPidNsLevel s) (hc : s.proc p = some c)
    (hleads : Leads maxPidNsLevel s.world (s.setNsproxy K p c n).world)
    (hanc : ∀ d, s.world.K.pid p = some d → IsAncestor K.parent n d.ns) :
    ProcInv maxPidNsLevel (s.setNsproxy K p c n) := by
  obtain ⟨h', hlater⟩ := h.grown.leads hleads
  refine h.next hleads (fun m => ?_) fun {q e} he => ?_
  · have htally := h.tally_update hc hleads (some { c with pidNsForChildren := n }) m
    have hholds := h.holds hc
    show addRef (dropRef s.world.nsRefs c.pidNsForChildren) n m = s.files m +
      tally (procWeight m) (Function.update s.proc p (some { c with pidNsForChildren := n }))
        K.pidBrk
    rw [addRef_apply, dropRef_apply]
    simp only [procWeight] at htally
    by_cases hm : c.pidNsForChildren = m
    · subst hm
      simp only [if_true] at htally ⊢
      simp only [ProcSys.setNsproxy] at htally
      omega
    · simp only [if_neg hm] at htally ⊢
      simp only [ProcSys.setNsproxy] at htally
      omega
  · rcases update_eq_some he with ⟨rfl, heq⟩ | ⟨-, he⟩
    · refine ⟨h.live hc, Or.inr fun d' hd' => ?_⟩
      obtain rfl := Option.some.inj heq
      obtain ⟨d, hd, hns⟩ := hlater.pid (h.pid_lt hc) hd'
      rw [hns]
      have hused := World.Holds.used h.grown.toSound (Or.inr ⟨q, d, hd, rfl⟩)
      have hused' := World.Holds.used h'.toSound (Or.inr ⟨q, d', hd', hns⟩)
      exact ⟨hanc d hd, fun a ha =>
        hlater.isAncestor h.grown h' hused hused' ((h.nested hc hd).2 a ha)⟩
    · exact ⟨h.live he, Or.inl he⟩

theorem ProcInv.addProc (h : ProcInv maxPidNsLevel s) {q : PidAddr}
    (hpid : K.pid q = some ⟨1, c.pidNsForChildren⟩) (hq : s.world.K.pidBrk ≤ q)
    (hbrk : K.pidBrk = q + 1) (hleads : Leads maxPidNsLevel s.world (s.addProc K q c).world)
    (hanc : ∀ a ∈ c.forefathers, IsAncestor K.parent c.pidNsForChildren a) :
    ProcInv maxPidNsLevel (s.addProc K q c) := by
  refine h.next hleads (fun m => ?_) fun {r e} he => ?_
  · have hrefs := h.refs m
    show addRef s.world.nsRefs c.pidNsForChildren m = s.files m +
      tally (procWeight m) (Function.update s.proc q (some c)) K.pidBrk
    rw [addRef_apply, hbrk, tally_snoc, h.tally_eq hq, hrefs]
    exact Nat.add_assoc _ _ _
  · rcases update_eq_some he with ⟨rfl, heq⟩ | ⟨-, he⟩
    · refine ⟨List.mem_cons_self, Or.inr fun d hd => ?_⟩
      obtain rfl := Option.some.inj heq
      obtain rfl := Option.some.inj (hpid.symm.trans hd)
      exact ⟨.refl _, hanc⟩
    · exact ⟨List.mem_cons_of_mem _ (h.live he), Or.inl he⟩

/-! ## Steps -/

/-- The step does what some calls do, and keeps the invariant. -/
def ProcSys.StepsTo (maxPidNsLevel : ℕ) (s : ProcSys) (x : Except Fault ProcSys) : Prop :=
  ∃ s', x = .ok s' ∧ Leads maxPidNsLevel s.world s'.world ∧ ProcInv maxPidNsLevel s'

/-- `copy_pid_ns` returns a namespace that is below that of the process. -/
theorem ProcInv.copyPidNs (h : ProcInv maxPidNsLevel s) (hc : s.proc p = some c) {d : PidObject}
    (hd : s.world.K.pid p = some d) (newpid made : Bool) :
    ∃ K' o, s.world.K.copyPidNs maxPidNsLevel newpid d.ns c.pidNsForChildren made = .ok (K', o) ∧
      Leads maxPidNsLevel s.world { s.world with
        K := K', nsRefs := o.elim s.world.nsRefs (addRef s.world.nsRefs) } ∧
      ∀ n, o = some n → IsAncestor K'.parent n d.ns ∧
        ∀ a ∈ c.forefathers, IsAncestor K'.parent d.ns a := by
  have hnested := h.nested hc hd
  have hcopied := h.grown.used_of_pos (h.holds hc)
  have hactive := World.Holds.used h.grown.toSound (Or.inr ⟨p, d, hd, rfl⟩)
  have hlive := h.live hc
  cases newpid with
  | false =>
      obtain ⟨K', hrun, hleads⟩ := h.grown.getPidNs hcopied
      refine ⟨K', some c.pidNsForChildren, ?_, hleads, fun n hn => ?_⟩
      · simp only [Objects.copyPidNs, if_true, hrun, ok_bind]
      · obtain rfl := Option.some.inj hn
        obtain ⟨h', hlater⟩ := h.grown.leads hleads
        exact hnested.later h.grown h' hlater hcopied (h'.used_of_pos (addRef_pos _ _))
  | true =>
      by_cases hne : d.ns = c.pidNsForChildren
      · obtain ⟨K', o, hrun, hleads, hparent⟩ := h.grown.createPidNamespace hcopied made
        refine ⟨K', o, ?_, hleads, fun n hn => ?_⟩
        · simp only [Objects.copyPidNs, Bool.true_eq_false, if_false, hne, ne_eq,
            not_true_eq_false, hrun]
        · obtain ⟨h', hlater⟩ := h.grown.leads hleads
          refine ⟨IsAncestor.step (.refl n) (hne ▸ hparent n hn), fun a ha => ?_⟩
          obtain ⟨d', hd', -, hactive'⟩ := h'.live (p := p) hlive
          obtain ⟨e, he, hns⟩ := hlater.pid (h.pid_lt hc) hd'
          obtain rfl := Option.some.inj (hd.symm.trans he)
          exact hlater.isAncestor h.grown h' hactive (hns ▸ hactive') (hnested.2 a ha)
      · refine ⟨s.world.K, none, ?_, .refl _, fun n hn => by simp at hn⟩
        simp only [Objects.copyPidNs, Bool.true_eq_false, if_false, ne_eq, hne,
          not_false_eq_true, if_true]

/-- A child is made in the namespace that its `nsproxy` has. -/
theorem ProcInv.forkChild (h : ProcInv maxPidNsLevel s) {forefathers : List NsAddr}
    (hleads : Leads maxPidNsLevel s.world { s.world with K, nsRefs := addRef s.world.nsRefs n })
    (hanc : IsAncestor K.parent n active) (hfore : ∀ a ∈ forefathers, IsAncestor K.parent active a)
    (adding : Bool) : s.StepsTo maxPidNsLevel (s.forkChild K active n forefathers adding) := by
  obtain ⟨h₁, hlater₁⟩ := h.grown.leads hleads
  have hpos : 0 < addRef s.world.nsRefs n n := addRef_pos _ _
  have hused : K.IsUsed n := h₁.used_of_pos hpos
  obtain ⟨K', o, hrun, hleads', hnew⟩ := h₁.allocPid hused adding
  obtain ⟨h', hlater'⟩ := h₁.leads hleads'
  have hrun : K.allocPid n adding = .ok (K', o) := hrun
  cases o with
  | some q =>
      obtain ⟨hpid, hq, hbrk⟩ := hnew q rfl
      refine ⟨s.addProc K' q ⟨n, active :: forefathers⟩, ?_, hleads.trans hleads', ?_⟩
      · simp only [ProcSys.forkChild, hrun, ok_bind]
      · refine h.addProc hpid (hq ▸ hlater₁.pidBrk) hbrk (hleads.trans hleads') fun a ha => ?_
        refine hlater'.isAncestor h₁ h' hused (h'.used_of_pos hpos) ?_
        rcases List.mem_cons.mp ha with rfl | ha
        · exact hanc
        · exact hanc.trans (hfore a ha)
  | none =>
      obtain ⟨K'', hput, hleads''⟩ := h'.putPidNs (n := n) hpos
      have hput : K'.putPidNs n = .ok K'' := hput
      have hall := hleads.trans (hleads'.trans hleads'')
      simp only [dropRef_addRef, Option.elim_none] at hall
      refine ⟨s.setK K'', ?_, hall, h.setK hall⟩
      simp only [ProcSys.forkChild, hrun, ok_bind, hput]

theorem ProcInv.skip (h : ProcInv maxPidNsLevel s) : s.StepsTo maxPidNsLevel (.ok s) :=
  ⟨s, rfl, .refl _, h⟩

/-- `pidns_install` does not fault, as long as somebody else than the `nsproxy` holds the namespace,
and changes something if and only if it returns 0. -/
theorem World.Grown.pidnsInstall (h : w.Grown maxPidNsLevel) {pidNsForChildren : NsAddr}
    (hactive : w.K.IsUsed active) (hold : 0 < w.nsRefs pidNsForChildren)
    (hn : 0 < dropRef w.nsRefs pidNsForChildren n) (capable : Bool) :
    ∃ K' installed err, w.K.pidnsInstall active pidNsForChildren n capable =
      .ok (K', installed, err) ∧
      Leads maxPidNsLevel w { w with
        K := K', nsRefs := addRef (dropRef w.nsRefs pidNsForChildren) installed } ∧
      (err = 0 ↔ capable = true ∧ IsAncestor w.K.parent n active) ∧ (err = 0 → installed = n) ∧
      (err ≠ 0 → K' = w.K ∧ installed = pidNsForChildren ∧
        err = if capable then -EINVAL else -EPERM) := by
  have hused : w.K.IsUsed n := by
    refine h.used_of_pos (lt_of_lt_of_le hn ?_)
    rw [dropRef_apply]
    exact Nat.sub_le _ _
  have hsame : Leads maxPidNsLevel w { w with
      K := w.K, nsRefs := addRef (dropRef w.nsRefs pidNsForChildren) pidNsForChildren } := by
    rw [addRef_dropRef hold]
    exact .refl w
  cases capable with
  | false =>
      refine ⟨_, _, _, pidnsInstall_of_not_capable hused, hsame, ?_, ?_, fun _ => ⟨rfl, rfl, rfl⟩⟩
      · simp [EPERM]
      · simp [EPERM]
  | true =>
      by_cases hanc : IsAncestor w.K.parent n active
      · have hinstall : w.K.pidnsInstall active pidNsForChildren n true = _ :=
          h.pidnsInstall_of_ancestor hused hactive hanc
        obtain ⟨K₁, hput, hleads₁⟩ := h.putPidNs hold
        obtain ⟨h₁, -⟩ := h.leads hleads₁
        obtain ⟨K₂, hget, hleads₂⟩ := h₁.getPidNs (h₁.used_of_pos hn)
        have hget : K₁.getPidNs n = .ok K₂ := hget
        simp only [hput, ok_bind, hget] at hinstall
        exact ⟨K₂, n, 0, hinstall, hleads₁.trans hleads₂, iff_of_true rfl ⟨rfl, hanc⟩, fun _ => rfl,
          fun hne => absurd rfl hne⟩
      · refine ⟨_, _, _, h.pidnsInstall_of_not_ancestor hused hactive hanc, hsame, ?_, ?_,
          fun _ => ⟨rfl, rfl, rfl⟩⟩
        · simp [EINVAL, hanc]
        · simp [EINVAL]

theorem ProcInv.unshare (h : ProcInv maxPidNsLevel s) (hc : s.proc p = some c) (made : Bool) :
    s.StepsTo maxPidNsLevel (procStepOf maxPidNsLevel s p c (.unshare p made)) := by
  obtain ⟨d, hd, hactive, -⟩ := h.grown.live (h.live hc)
  obtain ⟨K₁, o, hcopy, hleads, hanc⟩ := h.copyPidNs hc hd true made
  cases o with
  | none =>
      refine ⟨s.setK K₁, ?_, hleads, h.setK hleads⟩
      simp only [procStepOf, hactive, ok_bind, hcopy]
  | some n =>
      obtain ⟨h₁, -⟩ := h.grown.leads hleads
      have hheld := addRef_pos_of_pos (h.holds hc) n
      obtain ⟨K₂, hput, hleads₂⟩ := h₁.putPidNs (n := c.pidNsForChildren) hheld
      have hput : K₁.putPidNs c.pidNsForChildren = .ok K₂ := hput
      simp only [Option.elim_some, dropRef_addRef_comm (h.holds hc)] at hleads₂
      have hall := hleads.trans hleads₂
      obtain ⟨h₂, hlater₂⟩ := h₁.leads hleads₂
      refine ⟨s.setNsproxy K₂ p c n, ?_, hall, h.setNsproxy hc hall fun e he => ?_⟩
      · simp only [procStepOf, hactive, ok_bind, hcopy, hput]
      · obtain rfl := Option.some.inj (hd.symm.trans he)
        exact hlater₂.isAncestor h₁ h₂ (h₁.used_of_pos (addRef_pos _ _))
          (h₂.used_of_pos (addRef_pos _ _))
          (hanc n rfl).1

/-- A file holds its namespace besides the `nsproxy`s. -/
theorem ProcInv.file_besides (h : ProcInv maxPidNsLevel s) (hc : s.proc p = some c)
    (hn : 0 < s.files n) : 0 < dropRef s.world.nsRefs c.pidNsForChildren n := by
  have hrefs := h.refs n
  rw [dropRef_apply]
  by_cases heq : c.pidNsForChildren = n
  · have hle := le_tally (w := procWeight n) (f := s.proc) (h.pid_lt hc)
    have hweight : procWeight n (s.proc p) = 1 := by
      rw [hc]
      exact if_pos heq
    rw [if_pos heq]
    omega
  · rw [if_neg heq]
    omega

theorem ProcInv.setns (h : ProcInv maxPidNsLevel s) (hc : s.proc p = some c) (n : NsAddr)
    (capable : Bool) :
    s.StepsTo maxPidNsLevel (procStepOf maxPidNsLevel s p c (.setns p n capable)) := by
  by_cases hfile : 0 < s.files n
  swap
  · have hskip : procStepOf maxPidNsLevel s p c (.setns p n capable) = .ok s := if_neg hfile
    exact hskip ▸ h.skip
  obtain ⟨d, hd, hactive, -⟩ := h.grown.live (h.live hc)
  have hheld := h.holds hc
  -- the copy
  obtain ⟨K₁, hget, hleads₁⟩ := h.grown.getPidNs (h.grown.used_of_pos hheld)
  obtain ⟨h₁, hlater₁⟩ := h.grown.leads hleads₁
  have hheld₁ : 0 < addRef s.world.nsRefs c.pidNsForChildren c.pidNsForChildren := addRef_pos _ _
  have hnested₁ := (h.nested hc hd).later h.grown h₁ hlater₁ (h.grown.used_of_pos hheld)
    (h₁.used_of_pos hheld₁)
  have hactive₁ : K₁.IsUsed d.ns := h₁.used_of_isAncestor (h₁.used_of_pos hheld₁) hnested₁.1
  have hn₁ : 0 < dropRef (addRef s.world.nsRefs c.pidNsForChildren) c.pidNsForChildren n := by
    rw [dropRef_addRef]
    exact h.file hfile
  obtain ⟨K₂, m, err, hinstall, hleads₂, hzero, hdone, hfail⟩ :=
    h₁.pidnsInstall hactive₁ hheld₁ hn₁ capable
  have hinstall : K₁.pidnsInstall d.ns c.pidNsForChildren n capable = .ok (K₂, m, err) := hinstall
  simp only [dropRef_addRef] at hleads₂
  have hanc₁ : IsAncestor K₁.parent m d.ns := by
    by_cases herr : err = 0
    · rw [hdone herr]
      exact (hzero.mp herr).2
    · rw [(hfail herr).2.1]
      exact hnested₁.1
  -- it takes the place of the old one, or goes again
  obtain ⟨h₂, -⟩ := h₁.leads hleads₂
  obtain ⟨K₃, hput, hleads₃⟩ := h₂.putPidNs (n := c.pidNsForChildren) (addRef_pos_of_pos hheld m)
  have hput : K₂.putPidNs c.pidNsForChildren = .ok K₃ := hput
  simp only [dropRef_addRef_comm hheld] at hleads₃
  have htail := hleads₂.trans hleads₃
  have hall := hleads₁.trans htail
  obtain ⟨h₃, hlater₃⟩ := h₁.leads htail
  refine ⟨s.setNsproxy K₃ p c m, ?_, hall, h.setNsproxy hc hall fun e he => ?_⟩
  · simp only [procStepOf, if_pos hfile, hactive, ok_bind, hget, hinstall, hput]
  · obtain rfl := Option.some.inj (hd.symm.trans he)
    refine hlater₃.isAncestor h₁ h₃ ?_ (h₃.used_of_pos (addRef_pos _ _)) hanc₁
    by_cases herr : err = 0
    · rw [hdone herr]
      exact h₁.used_of_pos (addRef_pos_of_pos (h.file hfile) _)
    · rw [(hfail herr).2.1]
      exact h₁.used_of_pos hheld₁

theorem ProcInv.exit (h : ProcInv maxPidNsLevel s) (hc : s.proc p = some c) :
    s.StepsTo maxPidNsLevel (procStepOf maxPidNsLevel s p c (.exit p)) := by
  obtain ⟨K₁, hput, hleads₁⟩ := h.grown.putPidNs (h.holds hc)
  let world : World :=
    { s.world with
      K := K₁.freePid p
      nsRefs := dropRef s.world.nsRefs c.pidNsForChildren
      live := s.world.live.erase p }
  have hall : Leads maxPidNsLevel s.world world :=
    hleads₁.trans (.of_step (a := .freePid p) (if_pos (h.live hc)))
  refine ⟨{ s with world, proc := Function.update s.proc p none }, ?_, hall,
    h.next hall (fun m => ?_) ?_⟩
  · simp only [procStepOf, hput, ok_bind, world]
  · have htally := h.tally_update hc hall none m
    have hheld := h.holds hc
    show dropRef s.world.nsRefs c.pidNsForChildren m =
      s.files m + tally (procWeight m) (Function.update s.proc p none) world.K.pidBrk
    rw [dropRef_apply]
    simp only [procWeight] at htally
    omega
  · intro q e he
    rcases update_eq_some he with ⟨-, hnone⟩ | ⟨hne, he⟩
    · simp at hnone
    · exact ⟨(List.mem_erase_of_ne hne).mpr (h.live he), Or.inl he⟩

theorem ProcInv.getParent (h : ProcInv maxPidNsLevel s) (hc : s.proc p = some c) (n : NsAddr) :
    s.StepsTo maxPidNsLevel (procStepOf maxPidNsLevel s p c (.getParent p n)) := by
  by_cases hfile : 0 < s.files n
  · obtain ⟨d, hd, hactive, -⟩ := h.grown.live (h.live hc)
    rcases h.grown.pidnsGetParent (h.grown.used_of_pos (h.file hfile)) d.ns with
      ⟨q, -, -, hq, hrun⟩ | ⟨-, hrun⟩
    · obtain ⟨K₁, hget, hleads⟩ := h.grown.getPidNs hq
      refine ⟨s.openFile K₁ q, ?_, hleads, h.openFile hleads⟩
      simp only [procStepOf, if_pos hfile, hactive, ok_bind, hrun, hget]
    · refine ⟨s.setK s.world.K, ?_, .refl _, h.setK (.refl _)⟩
      simp only [procStepOf, if_pos hfile, hactive, ok_bind, hrun]
  · have hskip : procStepOf maxPidNsLevel s p c (.getParent p n) = .ok s := if_neg hfile
    exact hskip ▸ h.skip

/-- What a process does. -/
theorem ProcInv.stepOf (h : ProcInv maxPidNsLevel s) (hc : s.proc p = some c) (a : ProcAct) :
    s.StepsTo maxPidNsLevel (procStepOf maxPidNsLevel s p c a) := by
  cases a with
  | fork _ newpid made adding =>
      obtain ⟨d, hd, hactive, -⟩ := h.grown.live (h.live hc)
      obtain ⟨K₁, o, hcopy, hleads, hanc⟩ := h.copyPidNs hc hd newpid made
      cases o with
      | none =>
          refine ⟨s.setK K₁, ?_, hleads, h.setK hleads⟩
          simp only [procStepOf, hactive, ok_bind, hcopy]
      | some n =>
          obtain ⟨hn, hfore⟩ := hanc n rfl
          obtain ⟨s', hrun, hs'⟩ := h.forkChild hleads hn hfore adding
          refine ⟨s', ?_, hs'⟩
          simp only [procStepOf, hactive, ok_bind, hcopy, hrun]
  | unshare _ made => exact h.unshare hc made
  | setns _ n capable => exact h.setns hc n capable
  | exit _ => exact h.exit hc
  | openPid _ =>
      obtain ⟨d, hd, hactive, hused⟩ := h.grown.live (h.live hc)
      obtain ⟨K₁, hget, hleads⟩ := h.grown.getPidNs hused
      refine ⟨s.openFile K₁ d.ns, ?_, hleads, h.openFile hleads⟩
      simp only [procStepOf, Objects.pidnsGet, hactive, ok_bind, hget]
  | openPidForChildren _ reaper =>
      obtain ⟨K₁, hget, hleads⟩ := h.grown.getPidNs (h.grown.used_of_pos (h.holds hc))
      cases reaper with
      | true =>
          refine ⟨s.openFile K₁ c.pidNsForChildren, ?_, hleads, h.openFile hleads⟩
          simp only [procStepOf, Objects.pidnsForChildrenGet, hget, ok_bind, if_true]
      | false =>
          obtain ⟨h₁, -⟩ := h.grown.leads hleads
          obtain ⟨K₂, hput, hleads₂⟩ := h₁.putPidNs (n := c.pidNsForChildren) (addRef_pos _ _)
          have hput : K₁.putPidNs c.pidNsForChildren = .ok K₂ := hput
          simp only [dropRef_addRef] at hleads₂
          have hall := hleads.trans hleads₂
          refine ⟨s.setK K₂, ?_, hall, h.setK hall⟩
          simp only [procStepOf, Objects.pidnsForChildrenGet, hget, ok_bind, Bool.false_eq_true,
            if_false, hput]
  | getParent _ n => exact h.getParent hc n
  | start _ | close _ | getPid _ | putPid _ | callback _ => exact h.skip

theorem ProcInv.close (h : ProcInv maxPidNsLevel s) (n : NsAddr) :
    s.StepsTo maxPidNsLevel (procStep maxPidNsLevel s (.close n)) := by
  by_cases hfile : 0 < s.files n
  · obtain ⟨K₁, hput, hleads⟩ := h.grown.putPidNs (h.file hfile)
    let world : World := { s.world with K := K₁, nsRefs := dropRef s.world.nsRefs n }
    have hleads : Leads maxPidNsLevel s.world world := hleads
    refine ⟨{ s with world, files := dropRef s.files n }, ?_, hleads,
      h.next hleads (fun m => ?_) fun hc => ⟨h.live hc, Or.inl hc⟩⟩
    · simp only [procStep, if_pos hfile, Objects.pidnsPut, hput, ok_bind, world]
    · have hrefs := h.refs_later hleads m
      show dropRef s.world.nsRefs n m = dropRef s.files n m +
        tally (procWeight m) s.proc world.K.pidBrk
      rw [dropRef_apply, dropRef_apply, hrefs]
      refine Nat.sub_add_comm ?_
      split
      · next hn =>
        rw [← hn]
        exact hfile
      · exact Nat.zero_le _
  · have hskip : procStep maxPidNsLevel s (.close n) = .ok s := if_neg hfile
    exact hskip ▸ h.skip

/-- What does not touch the references to namespaces. -/
theorem ProcInv.stepPid (h : ProcInv maxPidNsLevel s) {a : Act}
    (hkeeps : ∀ w, step maxPidNsLevel s.world a = .ok w →
      w.nsRefs = s.world.nsRefs ∧ w.live = s.world.live) :
    s.StepsTo maxPidNsLevel (do
      let world ← step maxPidNsLevel s.world a
      .ok { s with world }) := by
  obtain ⟨w, hrun, -⟩ := h.grown.step a
  obtain ⟨hnsRefs, hlive⟩ := hkeeps w hrun
  have hleads : Leads maxPidNsLevel s.world w := .of_step hrun
  refine ⟨{ s with world := w }, ?_, hleads,
    h.next hleads (fun m => ?_) fun {q c} hc => ⟨?_, Or.inl hc⟩⟩
  · rw [hrun, ok_bind]
  · show w.nsRefs m = _
    rw [hnsRefs]
    exact h.refs_later hleads m
  · show q ∈ w.live
    rw [hlive]
    exact h.live hc

/-- Each step does what some calls do, and keeps the invariant. -/
theorem ProcInv.step (h : ProcInv maxPidNsLevel s) (a : ProcAct) :
    s.StepsTo maxPidNsLevel (procStep maxPidNsLevel s a) := by
  have hproc : ∀ p x, (s.proc p = none → x = .ok s) →
      (∀ c, s.proc p = some c → x = procStepOf maxPidNsLevel s p c a) →
      s.StepsTo maxPidNsLevel x := by
    intro p x hnone hsome
    cases hc : s.proc p with
    | none => exact hnone hc ▸ h.skip
    | some c => exact hsome c hc ▸ h.stepOf hc a
  cases a with
  | start adding =>
      obtain ⟨K₁, hget, hleads⟩ := h.grown.getPidNs h.grown.counted.root
      have hfork : s.StepsTo maxPidNsLevel (s.forkChild K₁ initPidNs initPidNs [] adding) :=
        h.forkChild hleads (.refl initPidNs) (by simp) adding
      simpa only [procStep, hget, ok_bind] using hfork
  | fork p _ _ _ => refine hproc p _ (fun hc => ?_) fun c hc => ?_ <;> simp only [procStep, hc]
  | unshare p _ => refine hproc p _ (fun hc => ?_) fun c hc => ?_ <;> simp only [procStep, hc]
  | setns p _ _ => refine hproc p _ (fun hc => ?_) fun c hc => ?_ <;> simp only [procStep, hc]
  | exit p => refine hproc p _ (fun hc => ?_) fun c hc => ?_ <;> simp only [procStep, hc]
  | openPid p => refine hproc p _ (fun hc => ?_) fun c hc => ?_ <;> simp only [procStep, hc]
  | openPidForChildren p _ =>
      refine hproc p _ (fun hc => ?_) fun c hc => ?_ <;> simp only [procStep, hc]
  | getParent p _ => refine hproc p _ (fun hc => ?_) fun c hc => ?_ <;> simp only [procStep, hc]
  | close n => exact h.close n
  | getPid p =>
      refine h.stepPid fun w hrun => ?_
      rcases step_or_skip hrun with ⟨-, hrun⟩ | rfl
      · obtain ⟨K', -, hdone⟩ := bind_eq_ok.mp hrun
        obtain rfl := Except.ok.inj hdone
        exact ⟨rfl, rfl⟩
      · exact ⟨rfl, rfl⟩
  | putPid p =>
      refine h.stepPid fun w hrun => ?_
      rcases step_or_skip hrun with ⟨-, hrun⟩ | rfl
      · obtain ⟨K', -, hdone⟩ := bind_eq_ok.mp hrun
        obtain rfl := Except.ok.inj hdone
        exact ⟨rfl, rfl⟩
      · exact ⟨rfl, rfl⟩
  | callback g =>
      refine h.stepPid fun w hrun => ?_
      rcases step_or_skip hrun with ⟨-, hrun⟩ | rfl
      · obtain ⟨K', -, hdone⟩ := bind_eq_ok.mp hrun
        obtain rfl := Except.ok.inj hdone
        exact ⟨rfl, rfl⟩
      · exact ⟨rfl, rfl⟩

/-- Whatever processes do, no step faults, and calls that lead to the same state do all of it. -/
theorem proc_run (maxPidNsLevel : ℕ) (as : List ProcAct) :
    ∃ s, run (procStep maxPidNsLevel) .init as = .ok s ∧ Leads maxPidNsLevel .init s.world ∧
      ProcInv maxPidNsLevel s := by
  refine run_invariant_always
    (I := fun s => Leads maxPidNsLevel .init s.world ∧ ProcInv maxPidNsLevel s)
    (fun s a h => ?_) ⟨.refl _, procInv_init maxPidNsLevel⟩ as
  obtain ⟨s', hrun, hleads, h'⟩ := h.2.step a
  exact ⟨s', hrun, h.1.trans hleads, h'⟩

/-! ## What processes can reach -/

/-- The processes refine the calls: whatever they do, in any order, no step faults, and the same
counts, objects and callbacks come from a sequence of calls, each with references that its
caller has. -/
theorem processes_refine (maxPidNsLevel : ℕ) (as : List ProcAct) :
    ∃ s bs, run (procStep maxPidNsLevel) .init as = .ok s ∧
      run (step maxPidNsLevel) .init bs = .ok s.world := by
  obtain ⟨s, hrun, ⟨bs, hbs⟩, -⟩ := proc_run maxPidNsLevel as
  exact ⟨s, bs, hrun, hbs⟩

/-- No process escapes: in every state that a run reaches, a process is in a namespace that is used,
its children are made in or below it, and it is in or below each one that its forefathers were in
when they forked. -/
theorem below_forefathers (maxPidNsLevel : ℕ) (as : List ProcAct) :
    ∃ s, run (procStep maxPidNsLevel) .init as = .ok s ∧ ∀ p c, s.proc p = some c →
      ∃ active, s.world.K.taskActivePidNs p = .ok active ∧ s.world.K.IsUsed active ∧
        IsAncestor s.world.K.parent c.pidNsForChildren active ∧
        ∀ n ∈ c.forefathers, IsAncestor s.world.K.parent active n := by
  obtain ⟨s, hrun, -, h⟩ := proc_run maxPidNsLevel as
  refine ⟨s, hrun, fun p c hc => ?_⟩
  obtain ⟨d, hd, hactive, hused⟩ := h.grown.live (h.live hc)
  exact ⟨d.ns, hactive, hused, h.nested hc hd⟩

/-- In every state that a run reaches, a process that has a file which was opened on `n` can install
`n` if and only if it has the capability and `n` is its own namespace or below it; `pidns_install`
does not fault, and leaves everything as it is when it fails. -/
theorem pidns_install_iff (maxPidNsLevel : ℕ) (as : List ProcAct) :
    ∃ s, run (procStep maxPidNsLevel) .init as = .ok s ∧
      ∀ p c n capable, s.proc p = some c → 0 < s.files n →
      ∃ active K installed err, s.world.K.taskActivePidNs p = .ok active ∧
        s.world.K.pidnsInstall active c.pidNsForChildren n capable = .ok (K, installed, err) ∧
        (err = 0 ↔ capable = true ∧ IsAncestor s.world.K.parent n active) ∧
        (err = 0 → installed = n) ∧
        (err ≠ 0 → K = s.world.K ∧ installed = c.pidNsForChildren ∧
          err = if capable then -EINVAL else -EPERM) := by
  obtain ⟨s, hrun, -, h⟩ := proc_run maxPidNsLevel as
  refine ⟨s, hrun, fun p c n capable hc hn => ?_⟩
  obtain ⟨d, hd, hactive, hused⟩ := h.grown.live (h.live hc)
  obtain ⟨K, installed, err, hinstall, -, hresult⟩ :=
    h.grown.pidnsInstall hused (h.holds hc) (h.file_besides hc hn) capable
  exact ⟨d.ns, K, installed, err, hactive, hinstall, hresult⟩

/-- A process forks into a new namespace. The child cannot get back to where its parent is. -/
example : (run (procStep 32) .init [.start true, .unshare 0 true, .fork 0 false true true,
    .openPid 0, .setns 1 initPidNs true]).map (fun s => (s.proc 1).map Proc.pidNsForChildren) =
    .ok (some 1) := rfl

/-- In every state that a run reaches, a process learns the parent of `n` from a file that was
opened on `n`, if and only if the parent is its own namespace or below it; anything else is
`-EPERM`, and leaves everything as it is. -/
theorem pidns_get_parent_iff (maxPidNsLevel : ℕ) (as : List ProcAct) :
    ∃ s, run (procStep maxPidNsLevel) .init as = .ok s ∧
      ∀ p c n, s.proc p = some c → 0 < s.files n →
      ∃ active K o, s.world.K.taskActivePidNs p = .ok active ∧
        s.world.K.pidnsGetParent active n = .ok (K, o) ∧
        (∀ q, o = some q ↔ s.world.K.parent n = some q ∧ IsAncestor s.world.K.parent q active) ∧
        (o = none → K = s.world.K) := by
  obtain ⟨s, hrun, -, h⟩ := proc_run maxPidNsLevel as
  refine ⟨s, hrun, fun p c n hc hn => ?_⟩
  obtain ⟨d, hd, hactive, -⟩ := h.grown.live (h.live hc)
  rcases h.grown.pidnsGetParent (h.grown.used_of_pos (h.file hn)) d.ns with
    ⟨q, hq, hanc, hused, hrun'⟩ | ⟨hnone, hrun'⟩
  · obtain ⟨K, hget, -⟩ := h.grown.getPidNs hused
    rw [hget, ok_bind] at hrun'
    refine ⟨d.ns, K, some q, hactive, hrun', fun r => ⟨?_, ?_⟩, by simp⟩
    · rintro ⟨⟩
      exact ⟨hq, hanc⟩
    · rintro ⟨hr, -⟩
      exact hq.symm.trans hr
  · refine ⟨d.ns, _, none, hactive, hrun', fun r => ⟨by simp, ?_⟩, fun _ => rfl⟩
    rintro ⟨hr, hanc⟩
    exact absurd hanc (hnone r hr)

end KernelPid.Lifetime
