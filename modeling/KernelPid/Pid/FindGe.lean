import KernelPid.Pid.Unique

/-!
# The next pid

`find_ge_pid` takes the first node whose key is not below the number asked for. Where that number is
only reserved the node has the value `NULL`, which the caller takes for the end of the namespace. So
it finds the next published pid just when no reserved number comes first (`finds_next_iff`).
-/

namespace KernelPid

open Runs PidSkiplist

variable {ι : Type}

/-- The numbers from `nr` on that published pids have in `n`. -/
def Sys.numbersFrom (s : Sys (PidSkiplist PidAddr) ι) (nr : ℤ) (n : ι) : Set ℤ :=
  {k | nr ≤ k ∧ ∃ p ∈ s.live, s.K.Owns p k n}

/-- `find_ge_pid(nr, n)` returns the published pid with the least number from `nr` on, and `NULL`
only if there is none; it returns what `find_pid_ns(nr, n)` finds, if that is anything. -/
structure Sys.FindsNext (s : Sys (PidSkiplist PidAddr) ι) (nr : ℤ) (n : ι) : Prop where
  returns : ∃ o, findGePid plainList s.K nr n = .ok o
  least : ∀ p, findGePid plainList s.K nr n = .ok (some p) →
    p ∈ s.live ∧ ∃ k, IsLeast (s.numbersFrom nr n) k ∧ s.K.Owns p k n
  none : findGePid plainList s.K nr n = .ok none → s.numbersFrom nr n = ∅
  same : ∀ p, findPidNs plainList s.K nr n = .ok (some p) →
    findGePid plainList s.K nr n = .ok (some p)

/-- Not above any published number from `nr` on there is one that is bound to a pid, with no
reserved number from `nr` on before it. -/
def Sys.NoneReservedFirst (s : Sys (PidSkiplist PidAddr) ι) (nr : ℤ) (n : ι) : Prop :=
  ∀ k ∈ s.numbersFrom nr n, ∃ j p, nr ≤ j ∧ j ≤ k ∧ (s.K.ns n).pidSl.bindings j = some (some p) ∧
    ∀ i, nr ≤ i → i < j → (s.K.ns n).pidSl.bindings i ≠ some none

variable {T : PidNsTree ι} {S S' : MapSys ι} {a : Act ι} {s : Sys (PidSkiplist PidAddr) ι}

/-- What a list binds to a pid is published and not yet freed. -/
def BoundLive (S : MapSys ι) : Prop :=
  ∀ n nr p, (S.K.ns n).pidSl nr = some (some p) → p ∈ S.live

theorem boundLive_init : BoundLive (Sys.init fun _ => none : MapSys ι) := by
  intro n nr p hb
  simp [Sys.init, Kernel.init] at hb

section FindGe

variable {nr k : ℤ} {n : ι} {p : PidAddr}

theorem SysSim.bindings_eq (hs : SysSim Represents s S) (n : ι) :
    (s.K.ns n).pidSl.bindings = (S.K.ns n).pidSl := (hs.K.ns n).pidSl.eq_bindings.symm

/-- A number that is bound to a pid is a number of that pid, which is live. -/
theorem SysSim.owner (hs : SysSim Represents s S) (hS : SysShape T S) (hb : BoundLive S)
    (hk : (S.K.ns n).pidSl k = some (some p)) : p ∈ s.live ∧ s.K.Owns p k n := by
  obtain ⟨-, d, hd, ho⟩ := hS.bound hk
  rw [← hs.K.pid] at hd
  rw [hs.live]
  exact ⟨hb n k p hk, d, hd, ho⟩

theorem SysSim.findGePid_eq (hs : SysSim Represents s S) (nr : ℤ) (n : ι) :
    findGePid plainList s.K nr n = plainList.findGeRcu (s.K.ns n).pidSl nr := by
  rw [findGePid, plainList_simulates.hasHeader (hs.K.ns n).pidSl]
  rfl

/-- A pid that `find_pid_ns` finds is the one that `find_ge_pid` comes to first. -/
theorem SysSim.findGePid_of_findPidNs (hs : SysSim Represents s S)
    (hp : findPidNs plainList s.K nr n = .ok (some p)) :
    findGePid plainList s.K nr n = .ok (some p) := by
  have hlookup : findPidNs plainList s.K nr n = .ok ((S.K.ns n).pidSl nr).join :=
    plainList_simulates.lookupRcu (hs.K.ns n).pidSl nr
  rw [hlookup] at hp
  have hnr : (S.K.ns n).pidSl nr = some (some p) := by simpa [Option.join_eq_some_iff] using hp
  rw [hs.findGePid_eq]
  rcases plainList_simulates.findGeRcu (hs.K.ns n).pidSl nr with
    ⟨k, v, ⟨⟨hk, -⟩, hleast⟩, hv, hret⟩ | ⟨hnone, -⟩
  · have hle : k ≤ nr := hleast ⟨le_refl nr, by rw [hnr]; simp⟩
    obtain rfl : k = nr := le_antisymm hle hk
    rw [hret, ← Option.some.inj (hv.symm.trans hnr)]
  · simp [hnone nr (le_refl nr)] at hnr

/-- `find_ge_pid` comes to the pid `p`, at the number `k`. -/
theorem SysSim.findsNext_iff_of_pid (hs : SysSim Represents s S) (hS : SysShape T S)
    (hb : BoundLive S) (hret : findGePid plainList s.K nr n = .ok (some p)) (hk : nr ≤ k)
    (hleast : ∀ j, nr ≤ j → (S.K.ns n).pidSl j ≠ none → k ≤ j)
    (hp : (S.K.ns n).pidSl k = some (some p)) : s.FindsNext nr n ↔ s.NoneReservedFirst nr n := by
  obtain ⟨hlive, hown⟩ := hs.owner hS hb hp
  unfold Sys.NoneReservedFirst
  rw [hs.bindings_eq]
  constructor
  · intro hnext k' hk'
    obtain ⟨-, k₀, hk₀, hown₀⟩ := hnext.least p hret
    refine ⟨k, p, hk, ?_, hp, fun i hi hik hres => ?_⟩
    · -- the number of `p` that is least is `k`, since `p` has only one in `n`
      obtain ⟨-, -, d, ns, hd, hnum⟩ := hS.live (hs.live ▸ hlive)
      obtain ⟨d₁, hd₁, ho₁⟩ := hown
      obtain ⟨d₂, hd₂, ho₂⟩ := hown₀
      rw [hs.K.pid] at hd₁ hd₂
      obtain rfl := Option.some.inj (hd.symm.trans hd₁)
      obtain rfl := Option.some.inj (hd.symm.trans hd₂)
      rw [hnum.nr_unique ho₁ ho₂]
      exact hk₀.2 hk'
    · exact absurd (hleast i hi (by rw [hres]; simp)) (not_le.mpr hik)
  · intro hfirst
    refine ⟨⟨_, hret⟩, fun q hq => ?_, fun hn => ?_, fun q => hs.findGePid_of_findPidNs⟩
    · obtain rfl : p = q := by simpa [hret] using hq
      refine ⟨hlive, k, ⟨⟨hk, p, hlive, hown⟩, fun k' hk' => ?_⟩, hown⟩
      obtain ⟨j, p', hj, hjk, hbound, -⟩ := hfirst k' hk'
      exact le_trans (hleast j hj (by rw [hbound]; simp)) hjk
    · simp [hret] at hn

/-- `find_ge_pid` returns `NULL`, since there is no node from `nr` on or since the first one
is reserved. -/
theorem SysSim.findsNext_iff_of_null (hs : SysSim Represents s S)
    (hret : findGePid plainList s.K nr n = .ok none)
    (hnone : ∀ j p, nr ≤ j → (S.K.ns n).pidSl j = some (some p) →
      ∃ i, nr ≤ i ∧ i < j ∧ (S.K.ns n).pidSl i = some none) :
    s.FindsNext nr n ↔ s.NoneReservedFirst nr n := by
  unfold Sys.NoneReservedFirst
  rw [hs.bindings_eq]
  constructor
  · intro hnext k hk
    rw [hnext.none hret] at hk
    exact hk.elim
  · intro hfirst
    refine ⟨⟨_, hret⟩, fun q hq => ?_, fun _ => ?_, fun q => hs.findGePid_of_findPidNs⟩
    · simp [hret] at hq
    · rw [Set.eq_empty_iff_forall_notMem]
      intro k hk
      obtain ⟨j, p, hj, -, hbound, hres⟩ := hfirst k hk
      obtain ⟨i, hi, hij, hi'⟩ := hnone j p hj hbound
      exact hres i hi hij hi'

/-- In a state in which what is bound is live, and bound to a number of its own. -/
theorem SysSim.findsNext_iff (hs : SysSim Represents s S) (hS : SysShape T S) (hb : BoundLive S)
    (nr : ℤ) (n : ι) : s.FindsNext nr n ↔ s.NoneReservedFirst nr n := by
  -- the first node from `nr` on is a published number, a reserved one, or not there
  rcases plainList_simulates.findGeRcu (hs.K.ns n).pidSl nr with
    ⟨k, v, ⟨⟨hk, -⟩, hleast⟩, hv, hret⟩ | ⟨hnone, hret⟩
  · rw [← hs.findGePid_eq] at hret
    cases v with
    | some p => exact hs.findsNext_iff_of_pid hS hb hret hk (fun j hj hne => hleast ⟨hj, hne⟩) hv
    | none =>
        apply hs.findsNext_iff_of_null hret
        intro j p hj hbound
        refine ⟨k, hk, ?_, hv⟩
        apply lt_of_le_of_ne (hleast ⟨hj, by rw [hbound]; simp⟩)
        rintro rfl
        simp [hv] at hbound
  · rw [← hs.findGePid_eq] at hret
    apply hs.findsNext_iff_of_null hret
    intro j p hj hbound
    simp [hnone j hj] at hbound

end FindGe

/-! ## Runs -/

variable [DecidableEq ι]

/-- A pid gets into the lists when it is published, and leaves all of them when it is freed. -/
theorem SysStep.boundLive (h : SysStep T S a S') (hS : SysShape T S) (hb : BoundLive S) :
    BoundLive S' := by
  intro n nr q hq
  cases h with
  | skip => exact hb n nr q hq
  | start | startFailed => exact hb n nr q hq
  | @step t c c' A ht hstep =>
      show q ∈ liveAfter c c' S.live
      rcases hstep.bound hq with hold | ⟨rfl, hpc, hpc', -⟩
      · have hlive := hb n nr q hold
        rcases hstep.liveAfter_cases S.live with heq | ⟨heq, -, -⟩
        · rw [heq]
          exact hlive
        · rw [heq]
          exact List.mem_cons_of_mem _ hlive
      · simp only [liveAfter, hpc, hpc', List.mem_cons_self]
  | @free p d N hp hd hN =>
      show q ∈ S.live.erase p
      by_cases ho : d.Owns nr n
      · simp [hN.rebound_free.own ho] at hq
      · have hold : (S.K.ns n).pidSl nr = some (some q) := by rwa [← hN.rebound_free.other ho]
        -- what is bound to `p` are its own numbers, which are unbound now
        have hne : q ≠ p := by
          rintro rfl
          obtain ⟨-, d', hd', ho'⟩ := hS.bound hold
          rw [Option.some.inj (hd.symm.trans hd')] at ho
          exact ho ho'
        exact (List.mem_erase_of_ne hne).mpr (hb n nr q hold)
  | disable ns =>
      rw [disablePidAllocation_pidSl] at hq
      exact hb n nr q hq
  | writeLastPid ns v =>
      rw [writeLastPid_pidSl] at hq
      exact hb n nr q hq

/-- In every state of every run, for every number: `find_ge_pid` finds the next published pid if and
only if no reserved number comes first. -/
theorem finds_next_iff (T : PidNsTree ι) (as : List (Act ι)) :
    ∃ s, run (sysStep plainList T) (Sys.init init) as = .ok s ∧
      ∀ nr n, s.FindsNext nr n ↔ s.NoneReservedFirst nr n := by
  obtain ⟨s, hrun, S, hs, hS, hb⟩ := run_invariant_always
    (I := fun s : Sys _ ι => ∃ S, SysSim Represents s S ∧ SysShape T S ∧ BoundLive S)
    (fun s a hI => by
      obtain ⟨S, hs, hS, hb⟩ := hI
      obtain ⟨s', S', hstep, hs', hS'⟩ :=
        sysStep_refines plainList_simulates hs hS (fun _ => AllocCall.admissible_true _ _) a
      exact ⟨s', hstep, S', hs', hS'.shape hS, hS'.boundLive hS hb⟩)
    ⟨_, sysSim_init represents_init, sysShape_init, boundLive_init⟩ as
  exact ⟨s, hrun, fun nr n => hs.findsNext_iff hS hb nr n⟩

/-- A call has 1 reserved while 2 is published: asked for the next pid from 1 on, `find_ge_pid`
returns `NULL`. -/
theorem reserved_number_ends_search :
    ∃ s, run (sysStep plainList soleNs) (Sys.init init)
        [.start 0 () (grantAll 32768), .step 0, .start 1 () (grantAll 32768), .step 1,
          .step 1] = .ok s ∧
      s.UniqueNumbers ∧ ¬ s.FindsNext 1 () := by
  obtain ⟨s, S, hrun, hs, -, hT⟩ := plain_run_table soleNs
    [.start 0 () (grantAll 32768), .step 0, .start 1 () (grantAll 32768), .step 1, .step 1]
    (by decide)
  have heq : (run (sysStep plainList soleNs) (Sys.init init)
      [.start 0 () (grantAll 32768), .step 0, .start 1 () (grantAll 32768), .step 1, .step 1]).map
        (fun s => (findGePid plainList s.K 1 (), s.live, (s.K.pid 1).bind fun d => d.numbers 0)) =
      .ok (.ok none, [1], some ⟨2, ()⟩) := rfl
  rw [hrun] at heq
  simp only [Except.map, Except.ok.injEq, Prod.mk.injEq, Option.bind_eq_some_iff] at heq
  obtain ⟨hfind, hlive, d, hd, hnumber⟩ := heq
  refine ⟨s, hrun, (hT.unique_and_found hs).1, fun hnext => ?_⟩
  have hmem : 2 ∈ s.numbersFrom 1 () := ⟨by decide, 1, by rw [hlive]; simp, d, hd, 0, hnumber⟩
  rw [hnext.none hfind] at hmem
  exact hmem

end KernelPid
