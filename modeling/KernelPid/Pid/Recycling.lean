import KernelPid.Pid.CyclicScan
import KernelPid.Pid.System

/-!
# Numbers are used again last

The scan goes on where `last_pid` stands, so a number that was given out comes up again when the
scan has gone around. In between each other number was reserved too, or was passed over because a
pid had it (`recycled_last`). The calls of the threads may overlap in any way, `pid_max` may change,
and pids come and go.

What spoils it is left to `KeepsCursor`: a write to `ns_last_pid`, a rollback that starts over at 1,
and a number that `pid_max` or the lack of memory for a node keeps out of the scan.
-/

namespace KernelPid

open Runs PidSkiplist

variable {σ ι : Type}

/-! ## Around the numbers -/

/-- Counting up from behind `a` and then starting over, `k` is one of the numbers up to `b`. -/
def UpTo (a b k : ℤ) : Prop :=
  if a ≤ b then a < k ∧ k ≤ b else a < k ∨ k ≤ b

theorem not_upTo_self (a k : ℤ) : ¬ UpTo a a k := by
  unfold UpTo
  split <;> omega

/-- What a cursor that goes from `l` to `c` reaches for the first time since `a` lies between
`l` and `c`. -/
theorem UpTo.of_not {a l c k : ℤ} (hc : UpTo a c k) (hl : ¬ UpTo a l k) : UpTo l c k := by
  unfold UpTo at *
  split <;> split at hc <;> split at hl <;> omega

/-- The number `k` is within the reach of a scan. -/
structure ReserveEnv.Reaches (env : ReserveEnv) (k : ℤ) : Prop where
  lt_max : k < env.pidMax
  max_le : env.pidMax ≤ 2 ^ 31
  ok : (env.node k).ok = true

instance decidableReaches (env : ReserveEnv) (k : ℤ) : Decidable (env.Reaches k) :=
  decidable_of_iff (k < env.pidMax ∧ env.pidMax ≤ 2 ^ 31 ∧ (env.node k).ok = true)
    ⟨fun h => ⟨h.1, h.2.1, h.2.2⟩, fun h => ⟨h.lt_max, h.max_le, h.ok⟩⟩

section Picks

variable {m : Bindings PidAddr} {lastPid k c : ℤ} {env : ReserveEnv}

/-- A number within reach that comes before the one that is picked is bound to a pid. -/
theorem Picks.bound_of_before (h : Picks m lastPid env c) (hreach : env.Reaches k) (hk : 1 ≤ k)
    (hbefore : Before (startPid lastPid env.pidMax) k c) : ∃ p, m k = some (some p) := by
  have hnot := h.first k hk hreach.lt_max hbefore
  cases hm : m k with
  | none =>
      refine absurd ⟨?_, Or.inr hreach.ok⟩ hnot
      rw [hm]
      rfl
  | some v =>
      cases v with
      | none =>
          refine absurd ⟨?_, Or.inl ?_⟩ hnot
          · rw [hm]
            rfl
          · simp [hm]
      | some p => exact ⟨p, rfl⟩

/-- The scan comes by all numbers between the cursor and the one that it picks. -/
theorem Picks.before_of_upTo (h : Picks m lastPid env c) (hreach : env.Reaches k)
    (hlast : 0 ≤ lastPid) (hlast' : lastPid < 2 ^ 31) (hk : 1 ≤ k) (hup : UpTo lastPid c k)
    (hne : k ≠ c) : Before (startPid lastPid env.pidMax) k c := by
  have hc := h.lt_max
  have hlt := hreach.lt_max
  have hmax := hreach.max_le
  rw [startPid_eq hlast (by omega)]
  unfold UpTo at hup
  unfold scanStart Before
  split at hup <;> split <;> split <;> omega

/-- A scan that comes back to the number `c` comes by all those which the cursor has not
passed since. -/
theorem Picks.before_of_not_upTo (h : Picks m lastPid env c) (hreach : env.Reaches k)
    (hlast : 0 ≤ lastPid) (hlast' : lastPid < 2 ^ 31) (hk : 1 ≤ k) (hup : ¬ UpTo c lastPid k)
    (hne : k ≠ c) : Before (startPid lastPid env.pidMax) k c := by
  have hc := h.lt_max
  have hlt := hreach.lt_max
  have hmax := hreach.max_le
  rw [startPid_eq hlast (by omega)]
  unfold UpTo at hup
  unfold scanStart Before
  split at hup <;> split <;> split <;> omega

end Picks

/-! ## Reservations and the cursor -/

/-- The namespace and the number that the next section of the call `c` reserves. -/
def AllocCall.reservation (B : PidList σ) (K : Kernel σ ι) (c : AllocCall ι) : Option (ι × ℤ) :=
  match c.pc with
  | .reserve i n =>
    match reserve B (c.env.reserve i) (K.ns n) c.retval with
    | .ok (_, _, nr) => if nr < 0 then none else some (n, nr)
    | .error _ => none
  | _ => none

/-- The namespace and the number that the step `a` reserves. -/
def reservation (B : PidList σ) (s : Sys σ ι) : Act ι → Option (ι × ℤ)
  | .step t => (s.calls t).bind (·.reservation B s.K)
  | _ => none

/-- The next section of the call `c` does not set the cursor of `n` back, and its scan can
reach `k`. -/
def AllocCall.KeepsCursor (n : ι) (k : ℤ) (K : Kernel σ ι) (c : AllocCall ι) : Prop :=
  match c.pc with
  | .reserve i n' => n' = n → (c.env.reserve i).Reaches k
  | .rollback _ => c.ns = n → (K.ns n).pidAllocated ≠ pidnsAdding
  | _ => True

/-- The step `a` does not set the cursor of `n` back, and its scan can reach `k`. -/
def KeepsCursor (n : ι) (k : ℤ) (s : Sys σ ι) : Act ι → Prop
  | .step t => ∀ c ∈ s.calls t, c.KeepsCursor n k s.K
  | .writeLastPid n' _ => n' ≠ n
  | _ => True

/-- The step `a` reserves `k` in `n`, or a pid has this number. -/
def NumberUsed (n : ι) (k : ℤ) (s : Sys (PidSkiplist PidAddr) ι) (a : Act ι) : Prop :=
  reservation plainList s a = some (n, k) ∨ ∃ p, findPidNs plainList s.K k n = .ok (some p)

section Steps

variable [DecidableEq ι]

instance decidableCallKeepsCursor (n : ι) (k : ℤ) (K : Kernel σ ι) (c : AllocCall ι) :
    Decidable (c.KeepsCursor n k K) :=
  match h : c.pc with
  | .reserve i n' =>
    decidable_of_iff (n' = n → (c.env.reserve i).Reaches k) (by rw [AllocCall.KeepsCursor, h])
  | .rollback _ =>
    decidable_of_iff (c.ns = n → (K.ns n).pidAllocated ≠ pidnsAdding)
      (by rw [AllocCall.KeepsCursor, h])
  | .publish | .returned _ => isTrue (by rw [AllocCall.KeepsCursor, h]; trivial)

instance decidableKeepsCursor (n : ι) (k : ℤ) (s : Sys σ ι) (a : Act ι) :
    Decidable (KeepsCursor n k s a) :=
  match a with
  | .step t => inferInstanceAs (Decidable (∀ c ∈ s.calls t, c.KeepsCursor n k s.K))
  | .writeLastPid n' _ => inferInstanceAs (Decidable (n' ≠ n))
  | .start _ _ _ | .free _ | .disable _ => instDecidableTrue

variable {T : PidNsTree ι} {s s₀ s₁ : Sys (PidSkiplist PidAddr) ι} {S : MapSys ι}
  {A A' : MapKernel ι}
  {c c' : AllocCall ι} {a b : Act ι} {as bs : List (Act ι)} {n : ι} {k nr : ℤ}

omit [DecidableEq ι] in
/-- A section reserves what its scan picks. -/
theorem SysSim.reservation_eq_some_iff (hs : SysSim Represents s S) :
    c.reservation plainList s.K = some (n, nr) ↔
    ∃ i, c.pc = .reserve i n ∧ PicksAt S.K c i n nr := by
  unfold AllocCall.reservation
  cases hpc : c.pc with
  | publish | rollback _ | returned _ => simp
  | reserve i n' =>
      rcases plainList_simulates.reserve (hs.K.ns n') (c.env.reserve i)
        c.retval fun _ _ _ _ => trivial with
        ⟨nr', d', hpick, hrun, -⟩ | ⟨hnone, d', r, hrun, -⟩
      · have hpos : ¬ nr' < 0 := by
          have hone := hpick.pos
          omega
        simp only [hrun, if_neg hpos, Option.some.injEq, Prod.mk.injEq, AllocPc.reserve.injEq]
        constructor
        · rintro ⟨rfl, rfl⟩
          exact ⟨i, ⟨rfl, rfl⟩, hpick⟩
        · rintro ⟨i', ⟨rfl, rfl⟩, hpick'⟩
          exact ⟨rfl, hpick.unique hpick'⟩
      · simp only [hrun]
        refine iff_of_false (by simp) ?_
        rintro ⟨i', heq, hpick⟩
        obtain ⟨rfl, rfl⟩ := AllocPc.reserve.inj heq
        exact hnone nr hpick.pos hpick.lt_max hpick.takes

theorem reserved_lastPid (A : MapKernel ι) (p : PidAddr) (i : ℕ) (tmp n : ι) (nr : ℤ) :
    ((reserved A p i tmp nr).ns n).lastPid = if n = tmp then nr else (A.ns n).lastPid := by
  by_cases hn : n = tmp
  · subst hn
    simp [reserved, reserveNs, Kernel.setNumber, Kernel.setNs]
  · simp [reserved, Kernel.setNumber, Kernel.setNs, hn]

/-- A section moves the cursor to the number that it reserves, and leaves it alone otherwise, unless
it sets it back. -/
theorem AllocStep.lastPid (h : AllocStep T A c A' c')
    (hreset : ∀ lo, c.pc = .rollback lo → c.ns = n → (A.ns n).pidAllocated ≠ pidnsAdding) :
    (∃ i nr, c.pc = .reserve i n ∧ PicksAt A c i n nr ∧ (A'.ns n).lastPid = nr) ∨
    (∀ i nr, c.pc = .reserve i n → ¬ PicksAt A c i n nr) ∧
    (A'.ns n).lastPid = (A.ns n).lastPid := by
  cases h with
  | @reserve i tmp tmp' nr hpc _ hpick | @reserveLast tmp nr _ hpc hpick _ =>
      rw [reserved_lastPid]
      split
      · rename_i hn
        subst hn
        exact Or.inl ⟨_, nr, hpc, hpick, rfl⟩
      · rename_i hn
        refine Or.inr ⟨fun i' nr' hpc' => ?_, rfl⟩
        obtain ⟨-, rfl⟩ := AllocPc.reserve.inj (hpc.symm.trans hpc')
        exact absurd rfl hn
  | full hpc hnone =>
      refine Or.inr ⟨fun i' nr' hpc' hpick => ?_, rfl⟩
      obtain ⟨rfl, rfl⟩ := AllocPc.reserve.inj (hpc.symm.trans hpc')
      exact hnone nr' hpick.pos hpick.lt_max hpick.takes
  | refuse hpc | returned hpc => exact Or.inr ⟨fun i nr hpc' => by simp [hpc] at hpc', rfl⟩
  | publish hpc _ _ hN =>
      refine Or.inr ⟨fun i nr hpc' => by simp [hpc] at hpc', ?_⟩
      exact hN.keeps PidNamespace.lastPid (fun _ _ _ => rfl) n
  | @rollback lo d N hpc _ hN =>
      refine Or.inr ⟨fun i nr hpc' => by simp [hpc] at hpc', ?_⟩
      have hlast : (N n).lastPid = (A.ns n).lastPid :=
        hN.keeps PidNamespace.lastPid (fun _ _ _ => rfl) n
      have halloc : (N n).pidAllocated = (A.ns n).pidAllocated :=
        hN.keeps PidNamespace.pidAllocated (fun _ _ _ => rfl) n
      rw [← hlast]
      show ((resetCursor { A with ns := N } c.ns).ns n).lastPid = (N n).lastPid
      unfold resetCursor
      split
      · rename_i hadding
        have hne : n ≠ c.ns := by
          rintro rfl
          exact hreset lo hpc rfl (halloc.symm.trans hadding)
        simp [Kernel.setNs, hne]
      · rfl

/-- The steps of other calls than `alloc_pid` leave the cursor alone, unless they write it. -/
theorem SysStep.lastPid {S' : MapSys ι} (h : SysStep T S a S')
    (hcall : ¬ ∃ t c, a = .step t ∧ S.calls t = some c)
    (hwrite : ∀ v, a ≠ .writeLastPid n v) : (S'.K.ns n).lastPid = (S.K.ns n).lastPid := by
  cases h with
  | skip | start | startFailed => rfl
  | step ht => exact absurd ⟨_, _, rfl, ht⟩ hcall
  | free _ _ hN => exact hN.keeps PidNamespace.lastPid (fun _ _ _ => rfl) n
  | disable n' =>
      by_cases hn : n = n'
      · subst hn
        simp [disablePidAllocation, Kernel.setNs]
      · simp [disablePidAllocation, Kernel.setNs, hn]
  | writeLastPid n' v =>
      have hn : n ≠ n' := by
        rintro rfl
        exact hwrite v rfl
      simp [KernelPid.writeLastPid, Kernel.setNs, hn]

/-- A step moves the cursor to the number that it reserves, or leaves it alone. -/
theorem sysStep_cursor (hs : SysSim Represents s S) (hS : SysShape T S)
    (hkeep : KeepsCursor n k s a) :
    ∃ s' S', sysStep plainList T s a = .ok s' ∧ SysSim Represents s' S' ∧ SysShape T S' ∧
      ((∃ env c, reservation plainList s a = some (n, c) ∧ env.Reaches k ∧
        Picks (S.K.ns n).pidSl (S.K.ns n).lastPid env c ∧ (S'.K.ns n).lastPid = c) ∨
      (∀ c, reservation plainList s a ≠ some (n, c)) ∧
      (S'.K.ns n).lastPid = (S.K.ns n).lastPid) := by
  by_cases hcall : ∃ t c, a = .step t ∧ S.calls t = some c
  · obtain ⟨t, c, rfl, ht⟩ := hcall
    obtain ⟨K', c', A', hrun, hs', hstep⟩ :=
      sysStep_call plainList_simulates hs hS ht (AllocCall.admissible_true _ _)
    have hkeep' : c.KeepsCursor n k s.K := hkeep c (by rw [hs.calls]; exact ht)
    have hreset : ∀ lo, c.pc = .rollback lo → c.ns = n → (S.K.ns n).pidAllocated ≠ pidnsAdding := by
      intro lo hpc hn hadding
      rw [AllocCall.KeepsCursor, hpc] at hkeep'
      exact hkeep' hn ((hs.K.ns n).pidAllocated.trans hadding)
    refine ⟨_, _, hrun, hs', (SysStep.step ht hstep).shape hS, ?_⟩
    have hcalls : s.calls t = some c := (congrFun hs.calls t).trans ht
    simp only [reservation, hcalls, Option.bind_some, ne_eq, hs.reservation_eq_some_iff]
    rcases hstep.lastPid hreset with ⟨i, nr, hpc, hpick, hlast⟩ | ⟨hnone, hlast⟩
    · rw [AllocCall.KeepsCursor, hpc] at hkeep'
      exact Or.inl ⟨c.env.reserve i, nr, ⟨i, hpc, hpick⟩, hkeep' rfl, hpick, hlast⟩
    · refine Or.inr ⟨?_, hlast⟩
      rintro nr ⟨i, hpc, hpick⟩
      exact hnone i nr hpc hpick
  · obtain ⟨s', S', hrun, hs', hS'⟩ :=
      sysStep_refines plainList_simulates hs hS (fun _ => AllocCall.admissible_true _ _) a
    refine ⟨s', S', hrun, hs', hS'.shape hS,
      Or.inr ⟨fun c hres => ?_, hS'.lastPid hcall fun v ha => ?_⟩⟩
    · cases a with
      | step t =>
          obtain ⟨c', hc', -⟩ := Option.bind_eq_some_iff.mp hres
          exact hcall ⟨t, c', rfl, (congrFun hs.calls t).symm.trans hc'⟩
      | start | free | disable | writeLastPid => simp [reservation] at hres
    · subst ha
      exact hkeep rfl

omit [DecidableEq ι] in
/-- What a step reserves is what its scan picks. -/
theorem SysSim.picks_of_reservation (hs : SysSim Represents s S) (hkeep : KeepsCursor n k s a)
    (ha : reservation plainList s a = some (n, nr)) :
    ∃ env, env.Reaches k ∧ Picks (S.K.ns n).pidSl (S.K.ns n).lastPid env nr := by
  cases a with
  | start | free | disable | writeLastPid => simp [reservation] at ha
  | step t =>
      obtain ⟨c, hc, hres⟩ := Option.bind_eq_some_iff.mp ha
      obtain ⟨i, hpc, hpick⟩ := hs.reservation_eq_some_iff.mp hres
      have hkeep' : c.KeepsCursor n k s.K := hkeep c hc
      rw [AllocCall.KeepsCursor, hpc] at hkeep'
      exact ⟨_, hkeep' rfl, hpick⟩

omit [DecidableEq ι] in
/-- The readers find what the map binds. -/
theorem SysSim.find_of_bound (hs : SysSim Represents s S) {p : PidAddr}
    (hp : (S.K.ns n).pidSl k = some (some p)) : findPidNs plainList s.K k n = .ok (some p) := by
  have hlookup := plainList_simulates.lookupRcu (hs.K.ns n).pidSl k
  rw [hp] at hlookup
  exact hlookup

/-! ## Around once -/

/-- A run that comes back to the number `nr` uses all numbers that the cursor has not
passed since. -/
theorem hits_of_not_upTo (hs : SysSim Represents s S) (hS : SysShape T S)
    (hlast : 0 ≤ (S.K.ns n).lastPid) (hlast' : (S.K.ns n).lastPid < 2 ^ 31) (hk : 1 ≤ k)
    (hne : k ≠ nr) (hup : ¬ UpTo nr (S.K.ns n).lastPid k)
    (hkeep : Meets (sysStep plainList T) (KeepsCursor n k) s (as ++ [b]))
    (hrun : run (sysStep plainList T) s as = .ok s₁)
    (hb : reservation plainList s₁ b = some (n, nr)) :
    Hits (sysStep plainList T) (NumberUsed n k) s (as ++ [b]) := by
  induction as generalizing s S with
  | nil =>
      obtain rfl := Except.ok.inj hrun
      obtain ⟨env, hreach, hpick⟩ := hs.picks_of_reservation hkeep.1 hb
      have hbefore := hpick.before_of_not_upTo hreach hlast hlast' hk hup hne
      obtain ⟨p, hp⟩ := hpick.bound_of_before hreach hk hbefore
      exact Or.inl (Or.inr ⟨p, hs.find_of_bound hp⟩)
  | cons a as ih =>
      obtain ⟨s', S', hstep, hs', hS', hcursor⟩ := sysStep_cursor hs hS hkeep.1
      have hkeep' := hkeep.2
      simp only [List.append_eq, hstep] at hkeep'
      simp only [run, hstep, ok_bind] at hrun
      rcases hcursor with ⟨env, c, hres, hreach, hpick, hc⟩ | hsame
      · have hpos := hpick.pos
        have hlt := hpick.lt_max
        have hmax := hreach.max_le
        by_cases hkc : k = c
        · subst hkc
          exact Or.inl (Or.inl hres)
        · by_cases hupc : UpTo nr c k
          · -- the scan of this step comes by `k`
            have hbefore := hpick.before_of_upTo hreach hlast hlast' hk (hupc.of_not hup) hkc
            obtain ⟨p, hp⟩ := hpick.bound_of_before hreach hk hbefore
            exact Or.inl (Or.inr ⟨p, hs.find_of_bound hp⟩)
          · rw [← hc] at hupc
            exact (ih hs' hS' (by omega) (by omega) hupc hkeep' hrun).tail hstep
      · rw [← hsame.2] at hlast hlast' hup
        exact (ih hs' hS' hlast hlast' hup hkeep' hrun).tail hstep

/-- A number that was reserved in a namespace is reserved there again only after each other number
within reach was reserved, or a pid was found at it, in between: unless `ns_last_pid` is written or
a rollback sets the cursor back. -/
theorem recycled_last (T : PidNsTree ι) (bs as : List (Act ι)) (a b : Act ι) (n : ι) (nr k : ℤ)
    (hinit : run (sysStep plainList T) (Sys.init init) bs = .ok s)
    (ha : reservation plainList s a = some (n, nr)) (hstep : sysStep plainList T s a = .ok s₀)
    (hrun : run (sysStep plainList T) s₀ as = .ok s₁)
    (hb : reservation plainList s₁ b = some (n, nr))
    (hkeep : Meets (sysStep plainList T) (KeepsCursor n k) s (a :: as ++ [b])) (hk : 1 ≤ k)
    (hne : k ≠ nr) : Hits (sysStep plainList T) (NumberUsed n k) s₀ (as ++ [b]) := by
  obtain ⟨s', S, hinit', hs, hS⟩ := plain_run_shape T bs
  obtain rfl := Except.ok.inj (hinit.symm.trans hinit')
  obtain ⟨env, hreach, hpick⟩ := hs.picks_of_reservation hkeep.1 ha
  have hmax := hreach.max_le
  have hpos := hpick.pos
  have hlt := hpick.lt_max
  obtain ⟨s'', S', hstep', hs', hS', hcursor⟩ := sysStep_cursor hs hS hkeep.1
  obtain rfl := Except.ok.inj (hstep.symm.trans hstep')
  have hkeep' := hkeep.2
  simp only [List.append_eq, hstep] at hkeep'
  -- the cursor is at `nr` now
  have hcursor' : (S'.K.ns n).lastPid = nr := by
    rcases hcursor with ⟨-, c, hres, -, -, hc⟩ | ⟨hnone, -⟩
    · rw [ha] at hres
      rw [hc, (Prod.mk.inj (Option.some.inj hres)).2]
    · exact absurd ha (hnone nr)
  have hup : ¬ UpTo nr (S'.K.ns n).lastPid k := by
    rw [hcursor']
    exact not_upTo_self nr k
  exact hits_of_not_upTo hs' hS' (by omega) (by omega) hk hne hup hkeep' hrun hb

/-- There is no memory for the nodes of the numbers from 2 to 299. -/
def grantEnds : AllocEnv :=
  { grantAll 301 with
    reserve := fun _ =>
      { pidMax := 301, node := fun nr => ⟨pidSlRandomLevel 1, nr < 2 ∨ 299 < nr, true⟩ } }

set_option maxRecDepth 10000 in
/-- The first of two processes ends. A third one gets its number again, since there is no memory for
those behind the second one; that has been given the number 1 meanwhile. -/
theorem recycled_last_third : ∃ s s₀ s₁ : Sys (PidSkiplist PidAddr) Unit,
    run (sysStep plainList soleNs) (Sys.init init)
      [.writeLastPid () 299, .start 0 () (grantAll 301)] = .ok s ∧
    sysStep plainList soleNs s (.step 0) = .ok s₀ ∧
    run (sysStep plainList soleNs) s₀ [.step 0, .start 1 () (grantAll 301), .step 1,
      .step 1, .free 0, .start 2 () grantEnds] = .ok s₁ ∧
    reservation plainList s₁ (.step 2) = some ((), 300) ∧
    Hits (sysStep plainList soleNs) (NumberUsed () 1) s₀
      [.step 0, .start 1 () (grantAll 301), .step 1, .step 1, .free 0,
        .start 2 () grantEnds, .step 2] :=
  ⟨_, _, _, rfl, rfl, rfl, rfl, recycled_last soleNs
    [.writeLastPid () 299, .start 0 () (grantAll 301)]
    [.step 0, .start 1 () (grantAll 301), .step 1, .step 1, .free 0, .start 2 () grantEnds]
    (.step 0) (.step 2) () 300 1 rfl rfl rfl rfl rfl (by decide) (by decide) (by decide)⟩

end Steps

end KernelPid
