import KernelPid.Pid.Sequential
import KernelPid.Pid.System

/-!
# The table of the live pids

Calls one at a time: every `alloc_pid` and `free_pid` runs to its end before the next call starts.
Over maps, the lists are then just the table of the pids that were allocated and not freed
(`LiveTable`): each of their numbers is bound to them, and nothing else is bound, to a pid or to
`NULL`. `callStep_table` is the step, over any list that follows a map; the plain list does so
always (`pid_table_is_live_pids`) and the RB list as long as no number is reserved with a node of
the top level (`rb_table_is_live_pids`).
-/

namespace KernelPid

open Runs PidSkiplist Ancestors

variable {σ ι : Type} {T : PidNsTree ι}

/-! ## Complete calls -/

/-- A complete call, or a write of `last_pid` between two calls. -/
inductive PidCall (ι : Type)
  | alloc (ns : ι) (env : AllocEnv)
  | free (p : PidAddr)
  | disable (ns : ι)
  | writeLastPid (ns : ι) (v : ℤ)

/-- The kernel between two calls, and the pids that were allocated and not freed. -/
structure Ledger (σ ι : Type) where
  K : Kernel σ ι
  live : List PidAddr

/-- No call has run. -/
def Ledger.init (sl : σ) : Ledger σ ι where
  K := Kernel.init sl
  live := []

/-- One call. A `free_pid` of what is not a live pid is no call. -/
def callStep [DecidableEq ι] (B : PidList σ) (T : PidNsTree ι) (s : Ledger σ ι) :
    PidCall ι → Except Fault (Ledger σ ι)
  | .alloc ns env => do
    match ← allocPid B T s.K ns env false with
    | (K, .pid p) => .ok { K, live := p :: s.live }
    | (K, .err _) => .ok { s with K }
  | .free p =>
    if p ∈ s.live then do
      let K ← freePid B s.K p
      .ok { K, live := s.live.erase p }
    else .ok s
  | .disable ns => .ok { s with K := disablePidAllocation s.K ns }
  | .writeLastPid ns v => .ok { s with K := writeLastPid s.K ns v }

/-- `p` is a live pid, with the number `nr` in `n`. -/
def Ledger.Has (s : Ledger σ ι) (p : PidAddr) (nr : ℤ) (n : ι) : Prop :=
  p ∈ s.live ∧ s.K.Owns p nr n

/-- The lists are the table of the live pids, and the readers find them there; `list` is the plain
list within a build's list. -/
structure Ledger.IsTable (B : PidList σ) (list : σ → PidSkiplist PidAddr) (s : Ledger σ ι) :
    Prop where
  /-- No two nodes have one key. -/
  sorted : ∀ n, (list (s.K.ns n).pidSl).nodes.tail.Pairwise fun x y =>
    (list (s.K.ns n).pidSl).key x < (list (s.K.ns n).pidSl).key y
  nodes : ∀ n nr v, (∃ x ∈ (list (s.K.ns n).pidSl).nodes.tail,
    (list (s.K.ns n).pidSl).key x = nr ∧ (list (s.K.ns n).pidSl).pid x = v) ↔
      ∃ p, v = some p ∧ s.Has p nr n
  findPidNs : ∀ n nr, ∃ o, findPidNs B s.K nr n = .ok o ∧ ∀ p, o = some p ↔ s.Has p nr n
  findGePid : ∀ n nr,
    (∃ p nr', findGePid B s.K nr n = .ok (some p) ∧ s.Has p nr' n ∧
      IsLeast {nr' | nr ≤ nr' ∧ ∃ q, s.Has q nr' n} nr') ∨
    findGePid B s.K nr n = .ok none ∧ ∀ nr', nr ≤ nr' → ∀ q, ¬ s.Has q nr' n

/-! ## The table over maps -/

/-- The maps are the table of the live pids. -/
structure LiveTable (T : PidNsTree ι) (A : MapKernel ι) (live : List PidAddr) : Prop where
  lt_brk : ∀ {p}, p ∈ live → p < A.brk
  numbers : ∀ {p}, p ∈ live → ∃ d ns, A.pid p = some d ∧ d.NumbersFrom T ns 0
  nodup : live.Nodup
  entry : ∀ {n nr v}, (A.ns n).pidSl nr = some v ↔ ∃ p ∈ live, v = some p ∧ A.Owns p nr n

section LiveTable

variable {A A' : MapKernel ι} {live : List PidAddr} {ns : ι} {env : AllocEnv} {d : PidStruct ι}

theorem liveTable_init : LiveTable T (Kernel.init fun _ => none) [] where
  lt_brk hp := by simp at hp
  numbers hp := by simp at hp
  nodup := List.nodup_nil
  entry := by simp [Kernel.init]

/-- A live pid has no number together with another one. -/
theorem LiveTable.unique (h : LiveTable T A live) {p q : PidAddr} {nr : ℤ} {n : ι} (hp : p ∈ live)
    (hq : q ∈ live) (hpo : A.Owns p nr n) (hqo : A.Owns q nr n) : p = q := by
  have h₁ := h.entry.mpr ⟨p, hp, rfl, hpo⟩
  have h₂ := h.entry.mpr ⟨q, hq, rfl, hqo⟩
  rw [h₁] at h₂
  exact Option.some.inj (Option.some.inj h₂)

/-- Nothing is reserved between two calls, so a scan takes a number that is not bound. -/
theorem LiveTable.unbound (h : LiveTable T A live) {n : ι} {nr : ℤ} (hpick : PicksIn T A env n nr) :
    (A.ns n).pidSl nr = none := by
  have hjoin := hpick.takes.1
  cases hm : (A.ns n).pidSl nr with
  | none => rfl
  | some v =>
      obtain ⟨p, -, rfl, -⟩ := h.entry.mp hm
      rw [hm] at hjoin
      simp at hjoin

/-- A failed call leaves the maps as they were. -/
theorem LiveTable.restored (h : LiveTable T A live) (hres : Restored T A ns env false d A')
    (n : ι) : (A'.ns n).pidSl = (A.ns n).pidSl := by
  funext nr
  by_cases ho : d.Owns nr n
  · rw [hres.rebound.own ho]
    obtain ⟨j, hj⟩ := ho
    exact (h.unbound (hres.picks hj)).symm
  · exact hres.rebound.other ho

/-- The table looks at the maps and at the live `struct pid`s. -/
theorem LiveTable.congr (h : LiveTable T A live) (hm : ∀ n, (A'.ns n).pidSl = (A.ns n).pidSl)
    (hpid : ∀ {p}, p ∈ live → A'.pid p = A.pid p) (hbrk : A.brk ≤ A'.brk) :
    LiveTable T A' live where
  lt_brk hp := lt_of_lt_of_le (h.lt_brk hp) hbrk
  numbers hp := by
    rw [hpid hp]
    exact h.numbers hp
  nodup := h.nodup
  entry {n nr v} := by
    rw [hm, h.entry]
    refine exists_congr fun p => and_congr_right fun hp => and_congr_right fun _ => ?_
    exact (Kernel.owns_congr (hpid hp) nr n).symm

/-- A successful call enters its numbers into the table. -/
theorem LiveTable.published (h : LiveTable T A live) (hpub : Published T A ns env d A') :
    LiveTable T A' (A.brk :: live) := by
  have hne : ∀ {p}, p ∈ live → p ≠ A.brk := fun hp => Nat.ne_of_lt (h.lt_brk hp)
  have hself : ∀ {nr n}, A'.Owns A.brk nr n ↔ d.Owns nr n := Kernel.owns_iff hpub.self _ _
  have hold : ∀ {p nr n}, p ∈ live → (A'.Owns p nr n ↔ A.Owns p nr n) := fun hp =>
    Kernel.owns_congr (hpub.pid (hne hp)) _ _
  refine ⟨fun {p} hp => ?_, fun {p} hp => ?_, ?_, fun {n nr v} => ?_⟩
  · rw [hpub.brk]
    rcases List.mem_cons.mp hp with rfl | hp
    · exact Nat.lt_succ_self _
    · exact Nat.lt_succ_of_lt (h.lt_brk hp)
  · rcases List.mem_cons.mp hp with rfl | hp
    · exact ⟨d, ns, hpub.self, hpub.numbers⟩
    · rw [hpub.pid (hne hp)]
      exact h.numbers hp
  · exact List.nodup_cons.mpr ⟨fun hp => hne hp rfl, h.nodup⟩
  · by_cases ho : d.Owns nr n
    · -- the new pid has the number, and no old one does
      have hfree : (A.ns n).pidSl nr = none := by
        obtain ⟨j, hj⟩ := ho
        exact h.unbound (hpub.picks hj)
      rw [hpub.rebound.own ho, Option.some.injEq]
      constructor
      · rintro rfl
        exact ⟨A.brk, List.mem_cons_self .., rfl, hself.mpr ho⟩
      · rintro ⟨p, hp, rfl, hpo⟩
        rcases List.mem_cons.mp hp with rfl | hp
        · rfl
        · have := h.entry.mpr ⟨p, hp, rfl, (hold hp).mp hpo⟩
          rw [hfree] at this
          simp at this
    · rw [hpub.rebound.other ho, h.entry]
      constructor
      · rintro ⟨p, hp, hv, hpo⟩
        exact ⟨p, List.mem_cons_of_mem _ hp, hv, (hold hp).mpr hpo⟩
      · rintro ⟨p, hp, hv, hpo⟩
        rcases List.mem_cons.mp hp with rfl | hp
        · exact absurd (hself.mp hpo) ho
        · exact ⟨p, hp, hv, (hold hp).mp hpo⟩

/-- `free_pid` takes the numbers of its pid out of the table. -/
theorem LiveTable.freed (h : LiveTable T A live) {p : PidAddr} (hp : p ∈ live)
    (hd : A.pid p = some d) {N : ι → PidNamespace (Bindings PidAddr)} (hN : Rebound d none A.ns N) :
    LiveTable T { A with ns := N } (live.erase p) := by
  have howns : ∀ {nr n}, A.Owns p nr n ↔ d.Owns nr n := Kernel.owns_iff hd _ _
  refine ⟨fun hq => h.lt_brk (List.mem_of_mem_erase hq),
    fun hq => h.numbers (List.mem_of_mem_erase hq), h.nodup.erase p, fun {n nr v} => ?_⟩
  show (N n).pidSl nr = some v ↔ ∃ q ∈ live.erase p, v = some q ∧ A.Owns q nr n
  -- a number of `p` has no other owner, and any other number stays bound as it was
  by_cases ho : d.Owns nr n
  · rw [hN.own ho]
    refine iff_of_false (by simp) ?_
    rintro ⟨q, hq, -, hqo⟩
    rw [h.unique hp (List.mem_of_mem_erase hq) (howns.mpr ho) hqo] at hq
    exact h.nodup.not_mem_erase hq
  · rw [hN.other ho, h.entry]
    constructor
    · rintro ⟨q, hq, hv, hqo⟩
      have hne : q ≠ p := by
        rintro rfl
        exact ho (howns.mp hqo)
      exact ⟨q, (List.mem_erase_of_ne hne).mpr hq, hv, hqo⟩
    · rintro ⟨q, hq, hv, hqo⟩
      exact ⟨q, List.mem_of_mem_erase hq, hv, hqo⟩

end LiveTable

/-! ## The code keeps the table -/

variable {B : PidList σ} {Rep : σ → Bindings PidAddr → Prop} {adm : NodeEnv → Prop} {s : Ledger σ ι}
  {A : MapKernel ι}

/-- The kernel of `s` follows maps that are the table of its live pids. -/
structure Ledger.Follows (Rep : σ → Bindings PidAddr → Prop) (T : PidNsTree ι) (s : Ledger σ ι)
    (A : MapKernel ι) : Prop where
  K : KernelSim Rep s.K A
  table : LiveTable T A s.live

theorem ledger_init {sl : σ} (hsl : Rep sl fun _ => none) :
    (Ledger.init sl : Ledger σ ι).Follows Rep T (Kernel.init fun _ => none) :=
  ⟨⟨fun _ => ⟨hsl, rfl, rfl⟩, rfl, rfl⟩, liveTable_init⟩

/-- What is bound to a number is the live pid that has it. -/
theorem Ledger.Follows.entry (h : s.Follows Rep T A) {n : ι} {nr : ℤ} {v : Option PidAddr} :
    (A.ns n).pidSl nr = some v ↔ ∃ p, v = some p ∧ s.Has p nr n := by
  rw [h.table.entry]
  have howns : ∀ {p}, s.K.Owns p nr n ↔
    A.Owns p nr n := fun {p} => Kernel.owns_congr (congrFun h.K.pid p) nr n
  constructor
  · rintro ⟨p, hp, hv, ho⟩
    exact ⟨p, hv, hp, howns.mpr ho⟩
  · rintro ⟨p, hv, hp, ho⟩
    exact ⟨p, hp, hv, howns.mp ho⟩

theorem Ledger.Follows.bound_iff (h : s.Follows Rep T A) {n : ι} {nr : ℤ} :
    (A.ns n).pidSl nr ≠ none ↔ ∃ p, s.Has p nr n := by
  rw [Option.ne_none_iff_exists']
  constructor
  · rintro ⟨v, hv⟩
    obtain ⟨p, -, hp⟩ := h.entry.mp hv
    exact ⟨p, hp⟩
  · rintro ⟨p, hp⟩
    exact ⟨some p, h.entry.mpr ⟨p, rfl, hp⟩⟩

theorem Ledger.Follows.findPidNs (hB : Simulates B Rep adm) (h : s.Follows Rep T A) (n : ι)
    (nr : ℤ) : ∃ o, KernelPid.findPidNs B s.K nr n = .ok o ∧ ∀ p, o = some p ↔ s.Has p nr n := by
  refine ⟨_, hB.lookupRcu (h.K.ns n).pidSl nr, fun p => ?_⟩
  rw [Option.join_eq_some_iff, h.entry]
  simp

theorem Ledger.Follows.findGePid (hB : Simulates B Rep adm) (h : s.Follows Rep T A) (n : ι)
    (nr : ℤ) :
    (∃ p nr', KernelPid.findGePid B s.K nr n = .ok (some p) ∧ s.Has p nr' n ∧
      IsLeast {nr' | nr ≤ nr' ∧ ∃ q, s.Has q nr' n} nr') ∨
    KernelPid.findGePid B s.K nr n = .ok none ∧ ∀ nr', nr ≤ nr' → ∀ q, ¬ s.Has q nr' n := by
  have hns := (h.K.ns n).pidSl
  have hfind : KernelPid.findGePid B s.K nr n = B.findGeRcu (s.K.ns n).pidSl nr := by
    simp [KernelPid.findGePid, hB.hasHeader hns]
  rw [hfind]
  rcases hB.findGeRcu hns nr with ⟨nr', v, hleast, hv, heq⟩ | ⟨hnone, heq⟩
  · obtain ⟨p, rfl, hp⟩ := h.entry.mp hv
    refine Or.inl ⟨p, nr', heq, hp, ?_⟩
    simpa only [h.bound_iff] using hleast
  · refine Or.inr ⟨heq, fun nr' hle q hq => ?_⟩
    exact h.bound_iff.mpr ⟨q, hq⟩ (hnone nr' hle)

/-- Maps that are the table make the lists the table. -/
theorem Ledger.Follows.isTable {list : σ → PidSkiplist PidAddr} (hB : Simulates B Rep adm)
    (hlist : ∀ {sl m}, Rep sl m → Represents (list sl) m) (h : s.Follows Rep T A) :
    s.IsTable B list where
  sorted n := (hlist (h.K.ns n).pidSl).nodes_tail.1
  nodes n nr v := by rw [← (hlist (h.K.ns n).pidSl).nodes_tail.2, h.entry]
  findPidNs := h.findPidNs hB
  findGePid := h.findGePid hB

/-- The kernel with the plain lists within its RB lists read as maps. -/
def Kernel.rbMaps (K : Kernel (PidRbSkiplist PidAddr) ι) : MapKernel ι where
  ns n := { K.ns n with pidSl := (K.ns n).pidSl.toPidSkiplist.bindings }
  pid := K.pid
  brk := K.brk

/-- No number that a call of `alloc_pid` takes is reserved with a node of the top level. -/
def LowCall (T : PidNsTree ι) (s : Ledger (PidRbSkiplist PidAddr) ι) : PidCall ι → Prop
  | .alloc ns env => env.pidAlloc = true → ∀ n, T.IsAncestor ns n →
      TakenBelow T s.K.rbMaps ns env n → ∀ nr, PicksIn T s.K.rbMaps env n nr →
        LowDraw ((env.reserve (T.level n)).node nr)
  | _ => True

theorem kernelSim_rbMaps {K : Kernel (PidRbSkiplist PidAddr) ι} (h : KernelSim RbRepresents K A) :
    K.rbMaps = A := by
  obtain ⟨hns, hpid, hbrk⟩ := h
  obtain ⟨ns, pid, brk⟩ := A
  simp only [Kernel.rbMaps, Kernel.mk.injEq]
  refine ⟨funext fun n => ?_, hpid, hbrk⟩
  obtain ⟨⟨-, hm, -⟩, hlast, halloc⟩ := hns n
  rw [← hm.eq_bindings, hlast, halloc]

variable [DecidableEq ι]

/-- `alloc_pid` enters the numbers of the new pid, or leaves everything as it was. -/
theorem Ledger.Follows.allocPid (hB : Simulates B Rep adm) (h : s.Follows Rep T A) (ns : ι)
    (env : AllocEnv) (hadm : AllocAdmissible T adm A ns env) :
    ∃ K' r A', KernelPid.allocPid B T s.K ns env false = .ok (K', r) ∧ LastGiven A' r ∧
      ((∃ p, r = .pid p ∧ Ledger.Follows Rep T ⟨K', p :: s.live⟩ A') ∨
        ∃ e, r = .err e ∧ Ledger.Follows Rep T ⟨K', s.live⟩ A' ∧
          ∀ n, (A'.ns n).pidSl = (A.ns n).pidSl) := by
  obtain ⟨K', r, A', hrun, hK', hout, hlast⟩ := hB.allocPid (T := T) h.K ns env false hadm
  refine ⟨K', r, A', hrun, hlast, ?_⟩
  cases hout with
  -- a call that fails has unbound what it reserved
  | noMemory _ hres | full _ _ _ hres | refused _ _ _ hres =>
      have hsame := h.table.restored hres
      refine Or.inr ⟨_, rfl, ⟨hK', h.table.congr hsame (fun hp => ?_) hres.brk⟩, hsame⟩
      exact hres.pid (Nat.ne_of_lt (h.table.lt_brk hp))
  | published _ _ hpub => exact Or.inl ⟨_, rfl, hK', h.table.published hpub⟩

/-- Every call keeps the table. -/
theorem callStep_table (hB : Simulates B Rep adm) (h : s.Follows Rep T A) (a : PidCall ι)
    (hadm : ∀ ns env, a = .alloc ns env → AllocAdmissible T adm A ns env) :
    ∃ s' A', callStep B T s a = .ok s' ∧ s'.Follows Rep T A' := by
  cases a with
  | alloc ns env =>
      obtain ⟨K', r, A', hrun, -, ⟨p, rfl, h'⟩ | ⟨e, rfl, h', -⟩⟩ :=
        h.allocPid hB ns env (hadm ns env rfl)
      · exact ⟨_, A', by simp only [callStep, hrun, ok_bind], h'⟩
      · exact ⟨_, A', by simp only [callStep, hrun, ok_bind], h'⟩
  | free p =>
      by_cases hp : p ∈ s.live
      · obtain ⟨d, ns, hd, hnum⟩ := h.table.numbers hp
        obtain ⟨K', N, hrun, hK', hN⟩ := hB.freePid h.K hd hnum
        refine ⟨⟨K', s.live.erase p⟩, _, ?_, hK', h.table.freed hp hd hN.rebound_free⟩
        simp only [callStep, if_pos hp, hrun, ok_bind]
      · exact ⟨s, A, if_neg hp, h⟩
  | disable ns =>
      refine ⟨_, _, rfl, h.K.disablePidAllocation ns,
        h.table.congr (fun n => ?_) (fun _ => rfl) le_rfl⟩
      exact disablePidAllocation_pidSl A ns n
  | writeLastPid ns v =>
      have hns := h.K.ns ns
      refine ⟨_, writeLastPid A ns v, rfl, h.K.setNs ns ⟨hns.pidSl, rfl, hns.pidAllocated⟩,
        h.table.congr (fun n => ?_) (fun _ => rfl) le_rfl⟩
      exact writeLastPid_pidSl A ns v n

/-! ## The plain build -/

/-- Any run of complete calls of the plain build goes through without a fault and leaves the
lists as the table of the live pids; a call of `alloc_pid` that then fails leaves all of them
as they are. -/
theorem pid_table_is_live_pids (T : PidNsTree ι) (as : List (PidCall ι)) :
    ∃ s, run (callStep plainList T) (Ledger.init init) as = .ok s ∧ s.IsTable plainList id ∧
      ∀ ns env, ∃ K' r, allocPid plainList T s.K ns env false = .ok (K', r) ∧
        ∀ e, r = .err e → ∀ n, (K'.ns n).pidSl.bindings = (s.K.ns n).pidSl.bindings := by
  obtain ⟨s, hrun, A, h⟩ := run_invariant_always
    (I := fun s : Ledger _ ι => ∃ A, s.Follows Represents T A)
    (fun s a hI => by
      obtain ⟨A, h⟩ := hI
      obtain ⟨s', A', hstep, h'⟩ := callStep_table plainList_simulates h a
        fun ns env _ => allocAdmissible_true T A ns env
      exact ⟨s', hstep, A', h'⟩)
    ⟨_, ledger_init represents_init⟩ as
  refine ⟨s, hrun, h.isTable plainList_simulates id, fun ns env => ?_⟩
  obtain ⟨K', r, A', hcall, -, hr⟩ :=
    h.allocPid plainList_simulates ns env (allocAdmissible_true T A ns env)
  refine ⟨K', r, hcall, ?_⟩
  rintro e rfl n
  rcases hr with ⟨p, hp, -⟩ | ⟨e', -, h', hsame⟩
  · simp at hp
  · rw [← (h'.K.ns n).pidSl.eq_bindings, ← (h.K.ns n).pidSl.eq_bindings, hsame]

/-! ## The RB build -/

/-- A run of complete calls of the RB build whose reserved numbers get no node of the top level
leaves the lists as the table of the live pids. -/
theorem rb_table_is_live_pids (rb : KernelRbtree) (T : PidNsTree ι) (as : List (PidCall ι))
    (hlow : Meets (callStep (rbList rb) T) (LowCall T) (Ledger.init PidRbSkiplist.init) as) :
    ∃ s, run (callStep (rbList rb) T) (Ledger.init PidRbSkiplist.init) as = .ok s ∧
      s.IsTable (rbList rb) PidRbSkiplist.toPidSkiplist := by
  obtain ⟨s, hrun, A, h⟩ := run_invariant
    (I := fun s : Ledger _ ι => ∃ A, s.Follows RbRepresents T A)
    (fun s a hI ha => by
      obtain ⟨A, h⟩ := hI
      obtain ⟨s', A', hstep, h'⟩ := callStep_table (rbList_simulates rb) h a (by
        rintro ns env rfl halloc n hanc hbelow nr hpick - -
        rw [LowCall, kernelSim_rbMaps h.K] at ha
        exact ha halloc n hanc hbelow nr hpick)
      exact ⟨s', hstep, A', h'⟩)
    ⟨_, ledger_init rbRepresents_init⟩ hlow
  exact ⟨s, hrun, h.isTable (rbList_simulates rb) fun hsl => hsl.2.1⟩

/-- Two processes, the first of which is freed. -/
theorem rb_table_after_free :
    ∃ s, run (callStep (rbList .flat) soleNs) (Ledger.init PidRbSkiplist.init)
        [.alloc () (grantAll 32768), .alloc () (grantAll 32768), .free 0] = .ok s ∧
      s.IsTable (rbList .flat) PidRbSkiplist.toPidSkiplist := by
  refine rb_table_is_live_pids .flat soleNs _ (meets_of_forall ?_ _)
  have hlow : LowDraw ⟨pidSlRandomLevel 1, true, true⟩ := by
    show (pidSlRandomLevel 1).val < pidSlMaxLevel
    decide
  intro a ha s
  simp only [List.mem_cons, List.not_mem_nil, or_false] at ha
  rcases ha with rfl | rfl | rfl
  · exact fun _ _ _ _ _ _ => hlow
  · exact fun _ _ _ _ _ _ => hlow
  · trivial

/-- Every request is granted, and the nodes that reserve a number are of the top level. -/
def grantTop (pidMax : ℤ) : AllocEnv :=
  { grantAll pidMax with
    reserve := fun _ => { pidMax, node := fun _ => ⟨pidSlRandomLevel 0, true, true⟩ } }

/-- Publication does not find the node that reserves the number 1 behind itself, and makes another
one. -/
theorem top_level_number_twice :
    ¬ ∀ (rb : KernelRbtree) (as : List (PidCall Unit)),
      ∃ s, run (callStep (rbList rb) soleNs) (Ledger.init PidRbSkiplist.init) as = .ok s ∧
        s.IsTable (rbList rb) PidRbSkiplist.toPidSkiplist := by
  intro hall
  obtain ⟨s, hs, htable⟩ := hall .flat [.alloc () (grantTop 32768)]
  have hkeys : (run (callStep (rbList .flat) soleNs) (Ledger.init PidRbSkiplist.init)
      [.alloc () (grantTop 32768)]).map
        (fun s => let sl := (s.K.ns ()).pidSl.toPidSkiplist; sl.nodes.tail.map sl.key) =
      .ok [1, 1] := rfl
  obtain ⟨s', hs', heq⟩ := exists_of_map_eq_ok hkeys
  obtain rfl : s = s' := Except.ok.inj (hs.symm.trans hs')
  have hsorted := List.pairwise_map.mpr (htable.sorted ())
  rw [heq] at hsorted
  exact absurd hsorted (by decide)

end KernelPid
