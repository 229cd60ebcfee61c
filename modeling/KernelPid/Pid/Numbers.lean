import KernelPid.Pid.Unique

/-!
# The numbers of a pid (`pid_nr_ns`, `ns_of_pid`, `pid_nr`)

A pid has a number in the namespace that it was allocated in and in each namespace above it, and
looks like the number 0 from any other one. `pid_nr_round_trip`: in a run that keeps the table,
`pid_nr_ns` and `find_pid_ns` are inverse to each other on the published pids.
-/

namespace KernelPid

open Runs PidSkiplist Ancestors

variable {σ ι : Type} {T : PidNsTree ι} {d : PidStruct ι} {m n : ι} {p : PidAddr} {nr : ℤ}

/-! ## The readers -/

/-- `pid_nr_ns(pid, ns)` -/
def pidNrNs [DecidableEq ι] (T : PidNsTree ι) (K : Kernel σ ι) (pid : Option PidAddr) (ns : ι) :
    Except Fault ℤ :=
  match pid with
  | none => .ok 0
  | some p => do
    let d ← K.derefPid p
    if T.level ns ≤ d.level then do
      let upid ← d.number (T.level ns)
      .ok (if upid.ns = ns then upid.nr else 0)
    else .ok 0

/-- `ns_of_pid(pid)` -/
def nsOfPid (K : Kernel σ ι) (pid : Option PidAddr) : Except Fault (Option ι) :=
  match pid with
  | none => .ok none
  | some p => do
    let d ← K.derefPid p
    let upid ← d.number d.level
    .ok (some upid.ns)

/-- `pid_nr(pid)` -/
def pidNr (K : Kernel σ ι) (pid : Option PidAddr) : Except Fault ℤ :=
  match pid with
  | none => .ok 0
  | some p => do
    let d ← K.derefPid p
    let upid ← d.number 0
    .ok upid.nr

/-! ## What they read -/

/-- `d` is for a process of `m`, so it has a number in each namespace from `m` up. -/
theorem PidStruct.NumbersFrom.number_of_ancestor (hd : d.NumbersFrom T m 0)
    (hanc : T.IsAncestor m n) : ∃ nr, d.numbers (T.level n) = some ⟨nr, n⟩ := by
  obtain ⟨u, hu⟩ := hd.assigned (T.level n) (Nat.zero_le _) (hanc.level_le T.level_parent)
  have hn : u.ns = n := (hd.ancestor hu).eq_of_level_eq T.level_parent hanc (hd.level_ns hu)
  exact ⟨u.nr, by rw [hu, ← hn]⟩

theorem PidStruct.NumbersFrom.owns_iff_number (hd : d.NumbersFrom T m 0) :
    d.Owns nr n ↔ d.numbers (T.level n) = some ⟨nr, n⟩ := by
  constructor
  · rintro ⟨j, hj⟩
    rwa [hd.level_ns hj]
  · exact fun h => ⟨_, h⟩

section Reads

variable {K : Kernel σ ι} (hd : K.pid p = some d) (hnum : d.NumbersFrom T m 0)
include hd hnum

theorem nsOfPid_eq : nsOfPid K (some p) = .ok (some m) := by
  obtain ⟨nr, hself⟩ := hnum.number_of_ancestor (.refl m)
  simp only [nsOfPid, Kernel.derefPid, hd, ok_bind, PidStruct.number, hnum.level, hself]

theorem pidNr_eq (hn : T.level n = 0) (hnr : d.Owns nr n) :
    pidNr K (some p) = .ok nr := by
  rw [hnum.owns_iff_number, hn] at hnr
  simp only [pidNr, Kernel.derefPid, hd, ok_bind, PidStruct.number, hnr]

variable [DecidableEq ι]

theorem pidNrNs_of_owns (hnr : d.Owns nr n) : pidNrNs T K (some p) n = .ok nr := by
  have hle : T.level n ≤ d.level := by
    obtain ⟨j, hj⟩ := hnr
    rw [hnum.level, hnum.level_ns hj]
    exact hnum.le_level hj
  rw [hnum.owns_iff_number] at hnr
  simp only [pidNrNs, Kernel.derefPid, hd, ok_bind, if_pos hle, PidStruct.number, hnr, if_true]

theorem pidNrNs_of_not_ancestor (hanc : ¬ T.IsAncestor m n) : pidNrNs T K (some p) n = .ok 0 := by
  simp only [pidNrNs, Kernel.derefPid, hd, ok_bind]
  split
  · next hle =>
      -- at that level the pid has a number in another namespace
      obtain ⟨u, hu⟩ := hnum.assigned (T.level n) (Nat.zero_le _) (hnum.level ▸ hle)
      have hne : u.ns ≠ n := by
        rintro rfl
        exact hanc (hnum.ancestor hu)
      simp only [PidStruct.number, hu, ok_bind, if_neg hne]
  · rfl

/-- The number is not 0 where the pid has one, and this is the one that it has. -/
theorem pidNrNs_spec (n : ι) : ∃ nr, pidNrNs T K (some p) n = .ok nr ∧ (nr ≠ 0 ↔ T.IsAncestor m n) ∧
    ∀ nr', K.Owns p nr' n ↔ nr' = nr ∧ nr ≠ 0 := by
  by_cases hanc : T.IsAncestor m n
  · obtain ⟨nr, hnr⟩ := hnum.number_of_ancestor hanc
    have hpos : nr ≠ 0 := by
      have := hnum.pos hnr
      simp only at this
      omega
    refine ⟨nr, pidNrNs_of_owns hd hnum ⟨_, hnr⟩, iff_of_true hpos hanc, fun nr' => ?_⟩
    rw [Kernel.owns_iff hd]
    constructor
    · exact fun h => ⟨hnum.nr_unique h ⟨_, hnr⟩, hpos⟩
    · rintro ⟨rfl, -⟩
      exact ⟨_, hnr⟩
  · refine ⟨0, pidNrNs_of_not_ancestor hd hnum hanc, iff_of_false (by simp) hanc, fun nr' => ?_⟩
    rw [Kernel.owns_iff hd]
    refine iff_of_false ?_ (by simp)
    rintro ⟨j, hj⟩
    exact hanc (hnum.ancestor hj)

end Reads

/-! ## There and back -/

variable {s : Sys (PidSkiplist PidAddr) ι} {S : MapSys ι}

/-- A published pid has all its numbers. -/
theorem SysShape.numbers_of_live (hS : SysShape T S) (hs : SysSim Represents s S)
    (hp : p ∈ s.live) : ∃ d m, s.K.pid p = some d ∧ d.NumbersFrom T m 0 := by
  obtain ⟨-, -, d, m, hd, hnum⟩ := hS.live (hs.live ▸ hp)
  exact ⟨d, m, by rw [hs.K.pid, hd], hnum⟩

/-- What `find_pid_ns` finds is published and has the number. -/
theorem Table.findPidNs_iff (hT : Table S) (hs : SysSim Represents s S) :
    findPidNs plainList s.K nr n = .ok (some p) ↔ p ∈ s.live ∧ s.K.Owns p nr n := by
  constructor
  · intro hfind
    have hlookup := plainList_simulates.lookupRcu (hs.K.ns n).pidSl nr
    have hjoin := Except.ok.inj (hlookup.symm.trans hfind)
    rw [Option.join_eq_some_iff] at hjoin
    obtain ⟨q, ho, hq⟩ := hT.entry hjoin
    rcases hq with ⟨hq, heq⟩ | ⟨-, heq⟩
    · obtain rfl := Option.some.inj heq
      exact ⟨hs.live ▸ hq, (hs.owns_iff _ _ _).mpr ho⟩
    · simp at heq
  · rintro ⟨hp, ho⟩
    exact (hT.unique_and_found hs).2 p hp nr n ho

variable [DecidableEq ι]

/-- In a run whose reservations all come to a free number before any reserved one, every published
pid was allocated in one namespace; it has a number, other than 0, in this namespace and those above
it and in no other, and `find_pid_ns` finds it there by this number; and what `find_pid_ns` finds by
a number is a published pid with this number. -/
theorem pid_nr_round_trip (T : PidNsTree ι) (as : List (Act ι))
    (hfresh : Meets (sysStep plainList T) FreshStep (Sys.init init) as) :
    ∃ s, run (sysStep plainList T) (Sys.init init) as = .ok s ∧
      (∀ p ∈ s.live, ∃ m, nsOfPid s.K (some p) = .ok (some m) ∧ ∀ n,
        ∃ nr, pidNrNs T s.K (some p) n = .ok nr ∧ (nr ≠ 0 ↔ T.IsAncestor m n) ∧
          (nr ≠ 0 → findPidNs plainList s.K nr n = .ok (some p) ∧
            (T.level n = 0 → pidNr s.K (some p) = .ok nr))) ∧
      ∀ nr n p, findPidNs plainList s.K nr n = .ok (some p) →
        p ∈ s.live ∧ pidNrNs T s.K (some p) n = .ok nr := by
  obtain ⟨s, S, hrun, hs, hS, hT⟩ := plain_run_table T as hfresh
  refine ⟨s, hrun, fun p hp => ?_, fun nr n p hfind => ?_⟩
  · obtain ⟨d, m, hd, hnum⟩ := hS.numbers_of_live hs hp
    refine ⟨m, nsOfPid_eq hd hnum, fun n => ?_⟩
    obtain ⟨nr, hnr, hanc, howns⟩ := pidNrNs_spec hd hnum n
    refine ⟨nr, hnr, hanc, fun hne => ?_⟩
    have ho := (howns nr).mpr ⟨rfl, hne⟩
    refine ⟨(hT.findPidNs_iff hs).mpr ⟨hp, ho⟩, fun hn => ?_⟩
    exact pidNr_eq hd hnum hn ((Kernel.owns_iff hd _ _).mp ho)
  · obtain ⟨hp, ho⟩ := (hT.findPidNs_iff hs).mp hfind
    obtain ⟨d, m, hd, hnum⟩ := hS.numbers_of_live hs hp
    exact ⟨hp, pidNrNs_of_owns hd hnum ((Kernel.owns_iff hd _ _).mp ho)⟩

/-- A process, and another call that has reserved the number 2. -/
theorem pid_nr_round_trip_process :
    ∃ s, run (sysStep plainList soleNs) (Sys.init init)
        [.start 0 () (grantAll 32768), .step 0, .step 0, .start 1 () (grantAll 32768), .step 1] =
          .ok s ∧
      (∀ p ∈ s.live, ∃ m, nsOfPid s.K (some p) = .ok (some m) ∧ ∀ n,
        ∃ nr, pidNrNs soleNs s.K (some p) n = .ok nr ∧ (nr ≠ 0 ↔ soleNs.IsAncestor m n) ∧
          (nr ≠ 0 → findPidNs plainList s.K nr n = .ok (some p) ∧
            (soleNs.level n = 0 → pidNr s.K (some p) = .ok nr))) ∧
      ∀ nr n p, findPidNs plainList s.K nr n = .ok (some p) →
        p ∈ s.live ∧ pidNrNs soleNs s.K (some p) n = .ok nr :=
  pid_nr_round_trip soleNs _ (by decide)

end KernelPid
