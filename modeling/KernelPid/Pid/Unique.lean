import KernelPid.Pid.System

/-!
# Numbers are unique

A number that a call has reserved is bound to `NULL`, and `pid_skiplist_lookup_rcu` returns `NULL`
for it as for a free number, so that a scan that comes to a reserved number takes it a second time.
While no scan does (`FreshPick`), the lists are the table of the pids: `Table` says that a number is
bound to a published pid that has it, or to `NULL` for a call that has reserved it, and that no two
have the same. `numbers_unique` is the result for whole runs; `number_reserved_twice` is a run in
which two processes of a namespace get the number 1.
-/

namespace KernelPid

open Runs PidSkiplist Ancestors

variable {σ ι : Type}

/-! ## Who has a number -/

/-- The `struct pid` at `p` is the one of a call in flight. -/
def Sys.Reserved (s : Sys σ ι) (p : PidAddr) : Prop :=
  ∃ t c, s.calls t = some c ∧ c.InFlight ∧ c.pid = p

/-- The `struct pid` at `p` is reserved or published, and has the number `nr` in `n`. -/
def Sys.Holds (s : Sys σ ι) (p : PidAddr) (nr : ℤ) (n : ι) : Prop :=
  (p ∈ s.live ∨ s.Reserved p) ∧ s.K.Owns p nr n

/-- No two reserved or published `struct pid`s have the same number in the same namespace. -/
def Sys.UniqueNumbers (s : Sys σ ι) : Prop :=
  ∀ p q nr n, s.Holds p nr n → s.Holds q nr n → p = q

/-- `find_pid_ns` finds every published pid by each of its numbers. -/
def Sys.FindsPublished (B : PidList σ) (s : Sys σ ι) : Prop :=
  ∀ p ∈ s.live, ∀ nr n, s.K.Owns p nr n → findPidNs B s.K nr n = .ok (some p)

/-- The scan comes to a number that is not bound and can be inserted before it comes to `c`. -/
def FreeBefore (m : Bindings PidAddr) (lastPid : ℤ) (env : ReserveEnv) (c : ℤ) : Prop :=
  ∃ c', 1 ≤ c' ∧ c' < env.pidMax ∧ Before (startPid lastPid env.pidMax) c' c ∧ m c' = none ∧
    (env.node c').ok = true

/-- The scan comes to a free number before it comes to any that is bound to `NULL`. -/
def FreshPick (m : Bindings PidAddr) (lastPid : ℤ) (env : ReserveEnv) : Prop :=
  ∀ c, 1 ≤ c → c < env.pidMax → m c = some none → FreeBefore m lastPid env c

/-- The candidates of a scan are counted from 1. -/
theorem exists_candidate_iff (pidMax : ℤ) (P : ℤ → Prop) :
    (∃ k, k < (pidMax - 1).toNat ∧ P (1 + k)) ↔ ∃ c, 1 ≤ c ∧ c < pidMax ∧ P c := by
  constructor
  · rintro ⟨k, hk, hP⟩
    exact ⟨1 + k, by omega, by omega, hP⟩
  · rintro ⟨c, h₁, h₂, hP⟩
    have hc : 1 + ((c - 1).toNat : ℤ) = c := by omega
    exact ⟨(c - 1).toNat, by omega, by rwa [hc]⟩

instance decidableFreeBefore (m : Bindings PidAddr) (lastPid : ℤ) (env : ReserveEnv) (c : ℤ) :
    Decidable (FreeBefore m lastPid env c) :=
  decidable_of_iff
    (∃ k, k < (env.pidMax - 1).toNat ∧ Before (startPid lastPid env.pidMax) (1 + k) c ∧
      m (1 + k) = none ∧ (env.node (1 + k)).ok = true)
    (exists_candidate_iff env.pidMax fun c' => Before (startPid lastPid env.pidMax) c' c ∧
      m c' = none ∧ (env.node c').ok = true)

/-- A scan that starts at a free number comes to no other number before it. -/
theorem FreshPick.of_start {m : Bindings PidAddr} {lastPid : ℤ} {env : ReserveEnv}
    (hfree : m (startPid lastPid env.pidMax) = none)
    (hnode : (env.node (startPid lastPid env.pidMax)).ok = true) : FreshPick m lastPid env := by
  intro c h₁ h₂ hc
  have hone := one_le_startPid lastPid env.pidMax
  have hlt := startPid_lt lastPid env.pidMax
  have hne : startPid lastPid env.pidMax ≠ c := by
    rintro rfl
    rw [hc] at hfree
    exact absurd hfree (Option.some_ne_none _)
  refine ⟨_, hone, by omega, ?_, hfree, hnode⟩
  unfold Before
  split <;> omega

instance decidableFreshPick (m : Bindings PidAddr) (lastPid : ℤ) (env : ReserveEnv) :
    Decidable (FreshPick m lastPid env) :=
  if h : m (startPid lastPid env.pidMax) = none ∧
      (env.node (startPid lastPid env.pidMax)).ok = true then
    isTrue (FreshPick.of_start h.1 h.2)
  else
    decidable_of_iff
      (¬ ∃ k, k < (env.pidMax - 1).toNat ∧
        ¬ (m (1 + k) = some none → FreeBefore m lastPid env (1 + k))) (by
      rw [exists_candidate_iff env.pidMax fun c => ¬ (m c = some none → FreeBefore m lastPid env c)]
      simp only [not_exists, not_and, not_not, FreshPick])

/-- What a call does next, when it is a reservation, comes to a free number first. -/
def FreshAt (K : Kernel (PidSkiplist PidAddr) ι) (env : AllocEnv) : AllocPc ι → Prop
  | .reserve i tmp => FreshPick (K.ns tmp).pidSl.bindings (K.ns tmp).lastPid (env.reserve i)
  | _ => True

instance decidableFreshAt (K : Kernel (PidSkiplist PidAddr) ι) (env : AllocEnv) :
    ∀ pc, Decidable (FreshAt K env pc)
  | .reserve i _ => decidableFreshPick _ _ (env.reserve i)
  | .publish | .rollback _ | .returned _ => instDecidableTrue

/-- A reservation comes to a free number before any reserved one. -/
def FreshStep (s : Sys (PidSkiplist PidAddr) ι) : Act ι → Prop
  | .step t => ∀ c ∈ s.calls t, FreshAt s.K c.env c.pc
  | _ => True

instance decidableFreshStep (s : Sys (PidSkiplist PidAddr) ι) : ∀ a, Decidable (FreshStep s a)
  | .step t => inferInstanceAs (Decidable (∀ c ∈ s.calls t, FreshAt s.K c.env c.pc))
  | .start _ _ _ | .free _ | .disable _ | .writeLastPid _ _ => instDecidableTrue

/-- Then the number that the scan takes is not bound. -/
theorem FreshPick.unbound {m : Bindings PidAddr} {lastPid c : ℤ} {env : ReserveEnv}
    (h : FreshPick m lastPid env) (hc : Picks m lastPid env c) : m c = none := by
  cases hm : m c with
  | none => rfl
  | some v =>
      have hv : v = none := by simpa [hm] using hc.takes.1
      obtain ⟨c', h₁, h₂, hbefore, hfree, hnode⟩ := h c hc.pos hc.lt_max (by rw [hm, hv])
      exact absurd ⟨by rw [hfree]; rfl, Or.inr hnode⟩ (hc.first c' h₁ h₂ hbefore)

/-! ## The table -/

variable {T : PidNsTree ι} {S S' : MapSys ι}

/-- `p` has the number `nr` in `n`, which is to be bound to `v`. -/
def Entry (S : MapSys ι) (n : ι) (nr : ℤ) (p : PidAddr) (v : Option PidAddr) : Prop :=
  S.K.Owns p nr n ∧ (p ∈ S.live ∧ v = some p ∨ S.Reserved p ∧ v = none)

/-- The lists are the table of the numbers of the published pids and the calls in flight. -/
structure Table (S : MapSys ι) : Prop where
  bound : ∀ {n nr p v}, Entry S n nr p v → (S.K.ns n).pidSl nr = some v
  entry : ∀ {n nr v}, (S.K.ns n).pidSl nr = some v → ∃ p, Entry S n nr p v
  unique : ∀ {n nr p q v w}, Entry S n nr p v → Entry S n nr q w → p = q

theorem table_init : Table (Sys.init fun _ => none : MapSys ι) where
  bound h := by simp [Entry, Kernel.Owns, Sys.init, Kernel.init] at h
  entry h := by simp [Sys.init, Kernel.init] at h
  unique h := by simp [Entry, Kernel.Owns, Sys.init, Kernel.init] at h

theorem Table.congr (h : Table S) (hE : ∀ n nr p v, Entry S' n nr p v ↔ Entry S n nr p v)
    (hm : ∀ n, (S'.K.ns n).pidSl = (S.K.ns n).pidSl) : Table S' where
  bound hb := by
    rw [hm]
    exact h.bound ((hE _ _ _ _).mp hb)
  entry hb := by
    rw [hm] at hb
    obtain ⟨p, hp⟩ := h.entry hb
    exact ⟨p, (hE _ _ _ _).mpr hp⟩
  unique h₁ h₂ := h.unique ((hE _ _ _ _).mp h₁) ((hE _ _ _ _).mp h₂)

/-- Only `p₀` changes: it had the numbers `o`, bound to `v₀`, and has the numbers `o'`, bound to
`v₀'`. If the ones that it got were free, the ones that it lost are free now, and all others are
bound as they were, the lists are still the table. -/
theorem Table.update (h : Table S) {p₀ : PidAddr} {o : ι → ℤ → Prop} {v₀ : Option PidAddr}
    (o' : ι → ℤ → Prop) (v₀' : Option PidAddr)
    (hother : ∀ n nr p v, p ≠ p₀ → (Entry S' n nr p v ↔ Entry S n nr p v))
    (hself : ∀ n nr v, Entry S n nr p₀ v ↔ o n nr ∧ v = v₀)
    (hself' : ∀ n nr v, Entry S' n nr p₀ v ↔ o' n nr ∧ v = v₀')
    (hnew : ∀ n nr, o' n nr → ¬ o n nr → (S.K.ns n).pidSl nr = none)
    (hin : ∀ n nr, o' n nr → (S'.K.ns n).pidSl nr = some v₀')
    (hout : ∀ n nr, o n nr → ¬ o' n nr → (S'.K.ns n).pidSl nr = none)
    (hsame : ∀ n nr, ¬ o n nr → ¬ o' n nr → (S'.K.ns n).pidSl nr = (S.K.ns n).pidSl nr) :
    Table S' := by
  -- what another pid has is neither lost nor got by `p₀`
  have hapart : ∀ {n nr p v}, p ≠ p₀ → Entry S n nr p v → ¬ o n nr ∧ ¬ o' n nr := by
    intro n nr p v hp he
    have ho : ¬ o n nr := fun ho => hp (h.unique he ((hself n nr v₀).mpr ⟨ho, rfl⟩))
    refine ⟨ho, fun ho' => ?_⟩
    have hb := h.bound he
    rw [hnew n nr ho' ho] at hb
    simp at hb
  refine ⟨fun {n nr p v} he => ?_, fun {n nr v} hb => ?_, fun {n nr p q v w} h₁ h₂ => ?_⟩
  · by_cases hp : p = p₀
    · subst hp
      obtain ⟨ho, rfl⟩ := (hself' n nr v).mp he
      exact hin n nr ho
    · have he := (hother n nr p v hp).mp he
      obtain ⟨ho, ho'⟩ := hapart hp he
      rw [hsame n nr ho ho']
      exact h.bound he
  · by_cases ho' : o' n nr
    · rw [hin n nr ho'] at hb
      exact ⟨p₀, (hself' n nr v).mpr ⟨ho', (Option.some.inj hb).symm⟩⟩
    · by_cases ho : o n nr
      · rw [hout n nr ho ho'] at hb
        simp at hb
      · rw [hsame n nr ho ho'] at hb
        obtain ⟨p, hp⟩ := h.entry hb
        have hne : p ≠ p₀ := by
          rintro rfl
          exact ho ((hself n nr v).mp hp).1
        exact ⟨p, (hother n nr p v hne).mpr hp⟩
  · by_cases hp : p = p₀ <;> by_cases hq : q = p₀
    · rw [hp, hq]
    · subst hp
      exact absurd ((hself' n nr v).mp h₁).1 (hapart hq ((hother n nr q w hq).mp h₂)).2
    · subst hq
      exact absurd ((hself' n nr w).mp h₂).1 (hapart hp ((hother n nr p v hp).mp h₁)).2
    · exact h.unique ((hother n nr p v hp).mp h₁) ((hother n nr q w hq).mp h₂)

/-! ## The entries of one pid -/

theorem entry_of_inFlight (hS : SysShape T S) {t : ℕ} {c : AllocCall ι} (ht : S.calls t = some c)
    (hfl : c.InFlight) (n : ι) (nr : ℤ) (v : Option PidAddr) :
    Entry S n nr c.pid v ↔ S.K.Owns c.pid nr n ∧ v = none := by
  constructor
  · rintro ⟨ho, ⟨hp, -⟩ | ⟨-, hv⟩⟩
    · exact absurd hp (hS.not_mem_live ht hfl)
    · exact ⟨ho, hv⟩
  · rintro ⟨ho, hv⟩
    exact ⟨ho, Or.inr ⟨⟨t, c, ht, hfl, rfl⟩, hv⟩⟩

theorem Settled.not_reserved {p : PidAddr} (hp : Settled T S p) : ¬ S.Reserved p := by
  rintro ⟨t, c, ht, hfl, rfl⟩
  exact hp.idle ht hfl rfl

theorem entry_of_live (hS : SysShape T S) {p : PidAddr} (hp : p ∈ S.live) (n : ι) (nr : ℤ)
    (v : Option PidAddr) : Entry S n nr p v ↔ S.K.Owns p nr n ∧ v = some p := by
  constructor
  · rintro ⟨ho, ⟨-, hv⟩ | ⟨hres, -⟩⟩
    · exact ⟨ho, hv⟩
    · exact absurd hres (hS.live hp).not_reserved
  · rintro ⟨ho, hv⟩
    exact ⟨ho, Or.inl ⟨hp, hv⟩⟩

/-- A call that starts reserves its own pid. -/
theorem Sys.reserved_started {t : ℕ} {c : AllocCall ι} {A : MapKernel ι} {p : PidAddr}
    (ht : S.calls t = none) :
    (S.started t c A).Reserved p ↔ (c.InFlight ∧ c.pid = p) ∨ S.Reserved p := by
  constructor
  · rintro ⟨t', c', hc, hfl, rfl⟩
    rcases Sys.started_calls hc with ⟨-, rfl⟩ | hc
    · exact Or.inl ⟨hfl, rfl⟩
    · exact Or.inr ⟨t', c', hc, hfl, rfl⟩
  · rintro (⟨hfl, rfl⟩ | ⟨t', c', hc, hfl, rfl⟩)
    · exact ⟨t, c, Function.update_self _ _ _, hfl, rfl⟩
    · refine ⟨t', c', ?_, hfl, rfl⟩
      have hne : t' ≠ t := by
        rintro rfl
        rw [ht] at hc
        simp at hc
      rw [← hc]
      exact Function.update_of_ne hne _ _

/-! ## Starting and freeing -/

/-- What will be allocated next has no entry. -/
theorem SysShape.not_entry_brk (hS : SysShape T S) {n : ι} {nr : ℤ} {v : Option PidAddr} :
    ¬ Entry S n nr S.K.brk v := by
  rintro ⟨-, ⟨hp, -⟩ | ⟨⟨t, c, ht, hfl, heq⟩, -⟩⟩
  · exact absurd (hS.live hp).lt_brk (Nat.lt_irrefl _)
  · exact absurd (heq ▸ hS.lt_brk ht hfl) (Nat.lt_irrefl _)

/-- A call that starts has no numbers yet. -/
theorem Table.started (hT : Table S) (hS : SysShape T S) {t : ℕ} (ns : ι) (env : AllocEnv)
    (ht : S.calls t = none) :
    Table (S.started t (newCall T S.K.brk ns env) (S.K.newPidStruct (T.level ns))) := by
  have howns : ∀ {p nr n}, p ≠ S.K.brk →
      ((S.started t (newCall T S.K.brk ns env) (S.K.newPidStruct (T.level ns))).K.Owns p nr n ↔
        S.K.Owns p nr n) := by
    intro p nr n hp
    simp only [Kernel.Owns, Sys.started, Kernel.newPidStruct, Function.update_of_ne hp]
  have hres : ∀ {p}, p ≠ S.K.brk →
      ((S.started t (newCall T S.K.brk ns env) (S.K.newPidStruct (T.level ns))).Reserved p ↔
        S.Reserved p) := by
    intro p hp
    rw [Sys.reserved_started ht]
    exact or_iff_right fun hnew => hp hnew.2.symm
  refine hT.congr (fun n nr p v => ?_) fun _ => rfl
  by_cases hp : p = S.K.brk
  · subst hp
    refine iff_of_false ?_ hS.not_entry_brk
    simp [Entry, Kernel.Owns, Sys.started, Kernel.newPidStruct, PidStruct.Owns]
  · unfold Entry
    rw [howns hp, hres hp]
    rfl

/-- A call that fails at once reserves nothing. -/
theorem Table.startFailed (hT : Table S) {t : ℕ} (ns : ι) (env : AllocEnv) (ht : S.calls t = none) :
    Table (S.started t { newCall T S.K.brk ns env with pc := .returned (.err (-ENOMEM)) } S.K) := by
  have hres : ∀ {p}, (S.started t { newCall T S.K.brk ns env with
      pc := .returned (.err (-ENOMEM)) } S.K).Reserved p ↔ S.Reserved p := by
    intro p
    rw [Sys.reserved_started ht]
    exact or_iff_right fun hnew => hnew.1 (.err (-ENOMEM)) rfl
  refine hT.congr (fun n nr p v => ?_) fun _ => rfl
  unfold Entry
  rw [hres]
  rfl

/-- A pid that is freed takes its entries with it. -/
theorem Table.freed (hT : Table S) (hS : SysShape T S) {p : PidAddr} {d : PidStruct ι}
    {N : ι → PidNamespace (Bindings PidAddr)} (hp : p ∈ S.live) (hd : S.K.pid p = some d)
    (hN : LevelsApplied d (fun _ => True) freeNs S.K.ns N) :
    Table { S with K := { S.K with ns := N }, live := S.live.erase p } := by
  have howns : ∀ n k, S.K.Owns p k n ↔ d.Owns k n := fun n k => Kernel.owns_iff hd k n
  refine hT.update (fun _ _ => False) none (fun n nr q v hq => ?_) (entry_of_live hS hp)
    (fun n nr v => ?_) (fun n nr ho' _ => ho'.elim) (fun n nr ho' => ho'.elim)
    (fun n nr ho _ => ?_) fun n nr ho _ => ?_
  · show _ ∧ (q ∈ S.live.erase p ∧ _ ∨ _) ↔ _
    rw [List.mem_erase_of_ne hq]
    rfl
  · refine iff_of_false ?_ fun hf => hf.1.elim
    rintro ⟨-, ⟨hmem, -⟩ | ⟨hres, -⟩⟩
    · exact hS.nodup.not_mem_erase hmem
    · exact (hS.live hp).not_reserved hres
  · exact hN.rebound_free.own ((howns n nr).mp ho)
  · exact hN.rebound_free.other fun hd => ho ((howns n nr).mpr hd)

/-! ## A section of a call -/

variable [DecidableEq ι]

section Call

variable {t : ℕ} {c c' : AllocCall ι} {A : MapKernel ι}

/-- A call changes the entries of its own pid only. -/
theorem entry_after_of_ne (ht : S.calls t = some c) (h : AllocStep T S.K c A c') {p : PidAddr}
    (hp : p ≠ c.pid) (n : ι) (nr : ℤ) (v : Option PidAddr) :
    Entry (S.after t c c' A) n nr p v ↔ Entry S n nr p v := by
  have howns : A.Owns p nr n ↔ S.K.Owns p nr n := Kernel.owns_congr (h.pid_of_ne hp) nr n
  have hlive : p ∈ (S.after t c c' A).live ↔ p ∈ S.live := by
    show p ∈ liveAfter c c' S.live ↔ _
    rcases h.liveAfter_cases S.live with heq | ⟨heq, -, -⟩
    · rw [heq]
    · rw [heq, List.mem_cons]
      exact or_iff_right hp
  have hres : (S.after t c c' A).Reserved p ↔ S.Reserved p := by
    constructor
    · rintro ⟨t', c'', ht', hfl', rfl⟩
      rcases Sys.after_calls ht' with ⟨-, rfl⟩ | ⟨-, hold⟩
      · exact absurd h.call_eq.2.1 hp
      · exact ⟨t', c'', hold, hfl', rfl⟩
    · rintro ⟨t', c'', ht', hfl', rfl⟩
      refine ⟨t', c'', ?_, hfl', rfl⟩
      have hne : t' ≠ t := by
        rintro rfl
        rw [ht] at ht'
        exact hp (congrArg AllocCall.pid (Option.some.inj ht').symm)
      rw [← ht']
      exact Function.update_of_ne hne _ _
  have hafter : Entry (S.after t c c' A) n nr p v ↔
      A.Owns p nr n ∧ (p ∈ (S.after t c c' A).live ∧ v = some p ∨
        (S.after t c c' A).Reserved p ∧ v = none) := Iff.rfl
  rw [hafter, howns, hlive, hres]
  rfl

/-- The numbers of the call's pid after a reservation: the new one, and those it had. -/
theorem reserved_owns {i : ℕ} {tmp : ι} {nr : ℤ} (hpc : c.pc = .reserve i tmp)
    (hc : c.Shape T S.K.pid) (n : ι) (k : ℤ) :
    (reserved S.K c.pid i tmp nr).Owns c.pid k n ↔
      (k = nr ∧ n = tmp) ∨ S.K.Owns c.pid k n := by
  simp only [AllocCall.Shape, hpc] at hc
  obtain ⟨-, -, d, hd, hnum⟩ := hc
  have hfree : d.numbers i = none := by
    by_contra hne
    obtain ⟨u, hu⟩ := Option.ne_none_iff_exists'.mp hne
    have := hnum.lo_le hu
    omega
  have hpid := setNumber_pid_self (K := S.K.setNs tmp (reserveNs i nr (S.K.ns tmp))) hd i ⟨nr, tmp⟩
  constructor
  · rintro ⟨d', hd', j, hj⟩
    obtain rfl := Option.some.inj (hpid.symm.trans hd')
    by_cases hji : j = i
    · subst hji
      simp only [Function.update_self, Option.some.injEq, Upid.mk.injEq] at hj
      exact Or.inl ⟨hj.1.symm, hj.2.symm⟩
    · simp only [Function.update_of_ne hji] at hj
      exact Or.inr ⟨d, hd, j, hj⟩
  · rintro (⟨rfl, rfl⟩ | ⟨d', hd', j, hj⟩)
    · exact ⟨_, hpid, i, Function.update_self _ _ _⟩
    · obtain rfl := Option.some.inj (hd.symm.trans hd')
      refine ⟨_, hpid, j, ?_⟩
      have hji : j ≠ i := by
        rintro rfl
        rw [hfree] at hj
        simp at hj
      simpa only [Function.update_of_ne hji] using hj

/-- A reservation adds the entry of a number that was free. -/
theorem Table.reserve (hT : Table S) (hS : SysShape T S) (ht : S.calls t = some c)
    (hfl : c.InFlight) {i : ℕ} {tmp : ι} {nr : ℤ} (hpc : c.pc = .reserve i tmp)
    (h : AllocStep T S.K c (reserved S.K c.pid i tmp nr) c') (hfl' : c'.InFlight)
    (hfree : (S.K.ns tmp).pidSl nr = none) :
    Table (S.after t c c' (reserved S.K c.pid i tmp nr)) := by
  have hpid : c'.pid = c.pid := h.call_eq.2.1
  have hself := entry_of_inFlight hS ht hfl
  have ht' : (S.after t c c' (reserved S.K c.pid i tmp nr)).calls t = some c' :=
    Function.update_self _ _ _
  have howns : ∀ n k, (S.after t c c' (reserved S.K c.pid i tmp nr)).K.Owns c.pid k n ↔
      (k = nr ∧ n = tmp) ∨ S.K.Owns c.pid k n := fun n k => reserved_owns hpc (hS.shape ht) n k
  refine hT.update (fun n k => (k = nr ∧ n = tmp) ∨ S.K.Owns c.pid k n) none
    (fun n k p v hp => entry_after_of_ne ht h hp n k v) hself
    (fun n k v => ?_) (fun n k ho' ho => ?_) (fun n k ho' => ?_) (fun n k ho ho' => ?_)
      fun n k ho ho' => ?_
  · have hself' := entry_of_inFlight (hS.after ht h) ht' hfl' n k v
    rwa [hpid, howns] at hself'
  · rcases ho' with ⟨rfl, rfl⟩ | ho'
    · exact hfree
    · exact absurd ho' ho
  · show ((reserved S.K c.pid i tmp nr).ns n).pidSl k = _
    rw [reserved_pidSl]
    split
    · rfl
    · rename_i hne
      rcases ho' with ⟨hk, hn⟩ | ho'
      · exact absurd ⟨hn, hk⟩ hne
      · exact hT.bound ((hself n k none).mpr ⟨ho', rfl⟩)
  · exact absurd (Or.inr ho) ho'
  · show ((reserved S.K c.pid i tmp nr).ns n).pidSl k = _
    rw [reserved_pidSl]
    exact if_neg fun hk => ho' (Or.inl ⟨hk.2, hk.1⟩)

/-- A step that only moves the call on changes no entry. -/
theorem Table.moved (hT : Table S) (hS : SysShape T S) (ht : S.calls t = some c) (hfl : c.InFlight)
    (h : AllocStep T S.K c S.K c') (hfl' : c'.InFlight) : Table (S.after t c c' S.K) := by
  have hpid : c'.pid = c.pid := h.call_eq.2.1
  have ht' : (S.after t c c' S.K).calls t = some c' := Function.update_self _ _ _
  refine hT.congr (fun n k p v => ?_) fun _ => rfl
  by_cases hp : p = c.pid
  · subst hp
    rw [entry_of_inFlight hS ht hfl, ← hpid,
      entry_of_inFlight (hS.after ht h) ht' hfl']
    rfl
  · exact entry_after_of_ne ht h hp n k v

/-- Publication binds the numbers of the pid to the pid. -/
theorem Table.publish (hT : Table S) (hS : SysShape T S) (ht : S.calls t = some c) {d : PidStruct ι}
    {N : ι → PidNamespace (Bindings PidAddr)} (hpc : c.pc = .publish) (hd : S.K.pid c.pid = some d)
    (hN : LevelsApplied d (fun _ => True) (publishNs c.pid c.env.publish) S.K.ns N)
    (h : AllocStep T S.K c { S.K with ns := N } { c with pc := .returned (.pid c.pid) }) :
    Table (S.after t c { c with pc := .returned (.pid c.pid) } { S.K with ns := N }) := by
  have hself := entry_of_inFlight hS ht (show c.InFlight from fun r => by simp [hpc])
  have hlive : c.pid ∈
    (S.after t c { c with pc := .returned (.pid c.pid) } { S.K with ns := N }).live := by
    simp [Sys.after, liveAfter, hpc]
  have howns : ∀ n k, S.K.Owns c.pid k n ↔ d.Owns k n := fun n k => Kernel.owns_iff hd k n
  have hre := hN.rebound_publish fun {n k} ho => by
    rw [hT.bound ((hself n k none).mpr ⟨(howns n k).mpr ho, rfl⟩)]
    simp
  exact hT.update (fun n k => S.K.Owns c.pid k n) (some c.pid)
    (fun n k p v hp => entry_after_of_ne ht h hp n k v) hself (entry_of_live (hS.after ht h) hlive)
    (fun n k ho' ho => absurd ho' ho) (fun n k ho' => hre.own ((howns n k).mp ho'))
    (fun n k ho ho' => absurd ho ho') fun n k ho _ => hre.other fun hd => ho ((howns n k).mpr hd)

/-- A rollback removes the entries of its pid. -/
theorem Table.rollback (hT : Table S) (hS : SysShape T S) (ht : S.calls t = some c) {lo : ℕ}
    {d : PidStruct ι} {N : ι → PidNamespace (Bindings PidAddr)} (hpc : c.pc = .rollback lo)
    (hd : S.K.pid c.pid = some d) (hN : LevelsApplied d (fun _ => True) rollbackNs S.K.ns N)
    (h : AllocStep T S.K c ((resetCursor { S.K with ns := N } c.ns).freePidStruct c.pid) c') :
    Table (S.after t c c' ((resetCursor { S.K with ns := N } c.ns).freePidStruct c.pid)) := by
  have hself := entry_of_inFlight hS ht (show c.InFlight from fun r => by simp [hpc])
  have howns : ∀ n k, S.K.Owns c.pid k n ↔ d.Owns k n := fun n k => Kernel.owns_iff hd k n
  have hpidSl : ∀ n k,
    (((resetCursor { S.K with ns := N } c.ns).freePidStruct c.pid).ns n).pidSl k =
      (N n).pidSl k := fun n k => congrFun (resetCursor_pidSl _ _ _) k
  refine hT.update (fun _ _ => False) none (fun n k p v hp => entry_after_of_ne ht h hp n k v) hself
    (fun n k v => ?_) (fun n k ho' _ => ho'.elim) (fun n k ho' => ho'.elim) (fun n k ho _ => ?_)
    fun n k ho _ => ?_
  · simp [Entry, Kernel.Owns, Sys.after, Kernel.freePidStruct]
  · exact (hpidSl n k).trans (hN.rebound_rollback.own ((howns n k).mp ho))
  · exact (hpidSl n k).trans (hN.rebound_rollback.other fun hd => ho ((howns n k).mpr hd))

/-- A step of a call that does not take a reserved number keeps the table. -/
theorem Table.after (hS : SysShape T S) (hT : Table S) (ht : S.calls t = some c)
    (h : AllocStep T S.K c A c')
    (hfresh : ∀ {i tmp nr}, c.pc = .reserve i tmp → PicksAt S.K c i tmp nr →
      (S.K.ns tmp).pidSl nr = none) : Table (S.after t c c' A) := by
  rcases h.inFlight_or with hfl | ⟨rfl, rfl⟩
  · cases id h with
    | reserve hpc _ hpick => exact hT.reserve hS ht hfl hpc h (fun r => by simp) (hfresh hpc hpick)
    | reserveLast hpc hpick _ =>
        refine hT.reserve hS ht hfl hpc h (fun r => ?_) (hfresh hpc hpick)
        simp only
        split <;> simp
    | full => exact hT.moved hS ht hfl h fun r => by simp
    | refuse => exact hT.moved hS ht hfl h fun r => by simp
    | returned hpc => exact absurd hpc (hfl _)
    | publish hpc _ hd hN => exact hT.publish hS ht hpc hd hN h
    | rollback hpc hd hN => exact hT.rollback hS ht hpc hd hN h
  · rw [Sys.after_self ht]
    exact hT

end Call

/-! ## Runs -/

/-- A step that does not take a reserved number keeps the table. -/
theorem SysStep.table {a : Act ι} (h : SysStep T S a S') (hS : SysShape T S) (hT : Table S)
    (hfresh : ∀ {t c i tmp nr}, a = .step t → S.calls t = some c → c.pc = .reserve i tmp →
      PicksAt S.K c i tmp nr → (S.K.ns tmp).pidSl nr = none) : Table S' := by
  cases h with
  | skip => exact hT
  | step ht hstep => exact hT.after hS ht hstep (hfresh rfl ht)
  | start ns env ht => exact hT.started hS ns env ht
  | startFailed ns env ht => exact hT.startFailed ns env ht
  | free hp hd hN => exact hT.freed hS hp hd hN
  | disable ns =>
      exact hT.congr (fun _ _ _ _ => Iff.rfl) fun n => disablePidAllocation_pidSl S.K ns n
  | writeLastPid ns v =>
      exact hT.congr (fun _ _ _ _ => Iff.rfl) fun n => writeLastPid_pidSl S.K ns v n

omit [DecidableEq ι] in
/-- The table of a system over maps, seen from the plain build. -/
theorem Table.unique_and_found {s : Sys (PidSkiplist PidAddr) ι} (hT : Table S)
    (hs : SysSim Represents s S) : s.UniqueNumbers ∧ s.FindsPublished plainList := by
  have howns : ∀ {p nr n}, s.K.Owns p nr n ↔ S.K.Owns p nr n := hs.owns_iff _ _ _
  have hholds : ∀ {p nr n}, s.Holds p nr n → ∃ v, Entry S n nr p v := by
    rintro p nr n ⟨hp, ho⟩
    rw [howns] at ho
    unfold Sys.Reserved at hp
    rw [hs.live, hs.calls] at hp
    rcases hp with hp | hp
    · exact ⟨some p, ho, Or.inl ⟨hp, rfl⟩⟩
    · exact ⟨none, ho, Or.inr ⟨hp, rfl⟩⟩
  constructor
  · intro p q nr n hp hq
    obtain ⟨v, hv⟩ := hholds hp
    obtain ⟨w, hw⟩ := hholds hq
    exact hT.unique hv hw
  · intro p hp nr n ho
    rw [hs.live] at hp
    have hb := hT.bound ⟨howns.mp ho, Or.inl ⟨hp, rfl⟩⟩
    have hlookup := plainList_simulates.lookupRcu (hs.K.ns n).pidSl nr
    rw [hb] at hlookup
    exact hlookup

/-- Every run whose reservations all come to a free number before any reserved one keeps
the table. -/
theorem plain_run_table (T : PidNsTree ι) (as : List (Act ι))
    (hfresh : Meets (sysStep plainList T) FreshStep (Sys.init init) as) :
    ∃ s S, run (sysStep plainList T) (Sys.init init) as = .ok s ∧ SysSim Represents s S ∧
      SysShape T S ∧ Table S := by
  obtain ⟨s, hrun, S, hs, hS, hT⟩ := run_invariant
    (I := fun s : Sys _ ι => ∃ S, SysSim Represents s S ∧ SysShape T S ∧ Table S)
    (fun s a hI ha => by
      obtain ⟨S, hs, hS, hT⟩ := hI
      obtain ⟨s', S', hstep, hs', hS'⟩ :=
        sysStep_refines plainList_simulates hs hS (fun _ => AllocCall.admissible_true _ _) a
      refine ⟨s', hstep, S', hs', hS'.shape hS, hS'.table hS hT ?_⟩
      rintro t c i tmp nr rfl ht hpc hpick
      -- what the condition says of the list holds of its map
      have hat := ha c (by rw [hs.calls]; exact ht)
      rw [hpc] at hat
      simp only [FreshAt, ← ((hs.K.ns tmp).pidSl).eq_bindings, (hs.K.ns tmp).lastPid] at hat
      exact hat.unbound hpick)
    ⟨_, sysSim_init represents_init, sysShape_init, table_init⟩ hfresh
  exact ⟨s, S, hrun, hs, hS, hT⟩

/-- In every run whose reservations all come to a free number before any reserved one, no two
reserved or published `struct pid`s ever have the same number in the same namespace, and
`find_pid_ns` finds every published pid until it is freed. -/
theorem numbers_unique (T : PidNsTree ι) (as : List (Act ι))
    (hfresh : Meets (sysStep plainList T) FreshStep (Sys.init init) as) :
    ∃ s, run (sysStep plainList T) (Sys.init init) as = .ok s ∧ s.UniqueNumbers ∧
      s.FindsPublished plainList := by
  obtain ⟨s, S, hrun, hs, -, hT⟩ := plain_run_table T as hfresh
  exact ⟨s, hrun, hT.unique_and_found hs⟩

/-- Two calls side by side: the second one finds the number 2, behind the one that the first one has
reserved. -/
theorem numbers_unique_side_by_side :
    ∃ s, run (sysStep plainList soleNs) (Sys.init init)
        [.start 0 () (grantAll 32768), .start 1 () (grantAll 32768), .step 0, .step 1, .step 1,
          .step 0] = .ok s ∧
      s.UniqueNumbers ∧ s.FindsPublished plainList :=
  numbers_unique soleNs _ (by decide)

/-- `last_pid` is set back while a call has the number 1 reserved: the next call gets 1, too. -/
theorem number_reserved_twice :
    ∃ s, run (sysStep plainList soleNs) (Sys.init init)
        [.start 0 () (grantAll 32768), .step 0, .writeLastPid () 0,
          .start 1 () (grantAll 32768), .step 1] =
          .ok s ∧ ¬ s.UniqueNumbers := by
  have hrun : (run (sysStep plainList soleNs) (Sys.init init)
      [.start 0 () (grantAll 32768), .step 0, .writeLastPid () 0, .start 1 () (grantAll 32768),
        .step 1]).map
        (fun s => ((s.calls 0).map fun c => (c.pid, c.pc), (s.calls 1).map fun c => (c.pid, c.pc),
          (s.K.pid 0).bind fun d => d.numbers 0, (s.K.pid 1).bind fun d => d.numbers 0)) =
      .ok (some (0, .publish), some (1, .publish), some ⟨1, ()⟩, some ⟨1, ()⟩) := rfl
  obtain ⟨s, hs, heq⟩ := exists_of_map_eq_ok hrun
  simp only [Prod.mk.injEq, Option.map_eq_some_iff, Option.bind_eq_some_iff] at heq
  obtain ⟨⟨c₀, ht₀, hp₀, hpc₀⟩, ⟨c₁, ht₁, hp₁, hpc₁⟩, ⟨d₀, hd₀, hn₀⟩, ⟨d₁, hd₁, hn₁⟩⟩ := heq
  refine ⟨s, hs, fun hunique => ?_⟩
  have h₀ : s.Holds 0 1 () :=
    ⟨Or.inr ⟨0, c₀, ht₀, fun r => by simp [hpc₀], hp₀⟩, d₀, hd₀, 0, hn₀⟩
  have h₁ : s.Holds 1 1 () :=
    ⟨Or.inr ⟨1, c₁, ht₁, fun r => by simp [hpc₁], hp₁⟩, d₁, hd₁, 0, hn₁⟩
  exact absurd (hunique 0 1 1 () h₀ h₁) (by decide)

end KernelPid
