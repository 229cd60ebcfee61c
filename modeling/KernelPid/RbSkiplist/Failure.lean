import KernelPid.RbSkiplist.Memory
import KernelPid.Skiplist.Undo

/-!
# Insertions without memory

Both kinds of list draw the new node's level, and raise `sl->level` to it, before they ask for the
node. When there is no memory for it, everything is as it was but the level: `refused_insert_iff`
says that it is left raised just when it was raised.
-/

namespace KernelPid

open Runs PidSkiplist

variable {α : Type}

/-- An insertion without memory leaves the list as it was if it did not raise the level. -/
theorem PidSkiplist.Unchanged.sameList_iff {s s' : PidSkiplist α} {lvl : ℕ}
    (hu : Unchanged s s' lvl) : SameList s s' ↔ lvl ≤ s.level := by
  constructor
  · intro hsame
    have hlevel := hsame.level
    rw [hu.level] at hlevel
    omega
  · intro hle
    exact ⟨hu.level.trans (max_eq_left hle), hu.header, fun x _ => by rw [hu.node]⟩

/-- Only an insertion that finds no memory returns a failure. -/
theorem PidSkiplist.Inv.insert_or_unchanged {s : PidSkiplist α} {h : Addr} {L : List Addr}
    (hs : Inv s h L) (k : ℤ) (v : Option α) (env : NodeEnv) :
    ∃ s' r, s.insert k v env = .ok (s', r) ∧ (r = 0 ∨ Unchanged s s' env.draw.val) := by
  by_cases hpres : ∃ p ∈ L, s.key p = k
  · obtain ⟨p, hp, hk⟩ := hpres
    exact ⟨_, 0, hs.insert_present hp hk v env, Or.inl rfl⟩
  · have hnew : ∀ p ∈ L, s.key p ≠ k := fun p hp hk => hpres ⟨p, hp, hk⟩
    cases henv : env.ok with
    | true =>
        obtain ⟨s', hs', -⟩ := hs.insert_absent hnew henv v
        exact ⟨s', 0, hs', Or.inl rfl⟩
    | false =>
        obtain ⟨s', hs', -, hu⟩ := hs.insert_enomem hnew henv v
        exact ⟨s', _, hs', Or.inr hu⟩

/-- The list is the same in both, and so are every node that `s` has, the tree and `in_rb_tree`. -/
structure PidRbSkiplist.SameRbList (s s' : PidRbSkiplist α) : Prop
    extends SameList s.toPidSkiplist s'.toPidSkiplist where
  topRbRoot : s'.topRbRoot = s.topRbRoot
  inRbTree : s'.inRbTree = s.inRbTree

/-- An insertion that returns `-ENOMEM` leaves a list of either kind as it was if and only if the
level drawn is not above that of the list. -/
theorem refused_insert_iff (rb : KernelRbtree) (key : ℤ) (pid : Option α) (env : NodeEnv) :
    (∀ s : PidSkiplist α, PidSkiplist.Reachable s →
      ∃ s' r, s.insert key pid env = .ok (s', r) ∧
        (r = -ENOMEM → (SameList s s' ↔ env.draw.val ≤ s.level))) ∧
    ∀ s : PidRbSkiplist α, PidRbSkiplist.Reachable rb s →
      ∃ s' r, s.insert rb key pid env = .ok (s', r) ∧
        (r = -ENOMEM → (PidRbSkiplist.SameRbList s s' ↔ env.draw.val ≤ s.level)) := by
  have hzero : ¬ (0 : ℤ) = -ENOMEM := by decide
  constructor
  · intro s hs
    obtain ⟨L, hinv⟩ := hs.inv
    obtain ⟨s', r, hins, rfl | hu⟩ := hinv.insert_or_unchanged key pid env
    · exact ⟨s', 0, hins, fun hr => absurd hr hzero⟩
    · exact ⟨s', r, hins, fun _ => hu.sameList_iff⟩
  · intro s hs
    obtain ⟨L, hshape⟩ := hs.rbShape
    obtain ⟨s', r, L', hins, -, rfl | ⟨sl, rfl, hu⟩⟩ := hshape.insert rb key pid env
    · exact ⟨s', 0, hins, fun hr => absurd hr hzero⟩
    · refine ⟨_, r, hins, fun _ => ⟨fun hsame => ?_, fun hle => ?_⟩⟩
      · exact hu.sameList_iff.mp hsame.toSameList
      · exact ⟨hu.sameList_iff.mpr hle, rfl, rfl⟩

/-- Three entries with nodes of the levels 3, 1 and 2, and one that was taken out. -/
def upToLevelThree : List (MemAct ℕ) :=
  [.write (.insert 1 (some 7) ⟨pidSlRandomLevel 256, true, true⟩),
    .write (.insert 2 (some 8) ⟨pidSlRandomLevel 1, true, true⟩),
    .write (.insert 6 (some 9) ⟨pidSlRandomLevel 16, true, true⟩), .write (.remove 2),
    .write (.insert 4 (some 8) ⟨pidSlRandomLevel 1, true, true⟩)]

/-- There is no memory for a node of level 2 then. -/
theorem refused_insert_iff_low :
    (∃ s s' : PidSkiplist ℕ, run PidSkiplist.memStep init upToLevelThree = .ok s ∧
      s.insert 3 (some 5) ⟨pidSlRandomLevel 16, false, true⟩ = .ok (s', -ENOMEM) ∧
      (SameList s s' ↔ (pidSlRandomLevel 16).val ≤ s.level)) ∧
    ∃ s s' : PidRbSkiplist ℕ,
      run (PidRbSkiplist.memStep .flat) PidRbSkiplist.init upToLevelThree = .ok s ∧
      s.insert .flat 3 (some 5) ⟨pidSlRandomLevel 16, false, true⟩ = .ok (s', -ENOMEM) ∧
      (PidRbSkiplist.SameRbList s s' ↔ (pidSlRandomLevel 16).val ≤ s.level) := by
  obtain ⟨hplain, hrb⟩ := refused_insert_iff .flat 3 (some 5) ⟨pidSlRandomLevel 16, false, true⟩
  constructor
  · obtain ⟨s, hrun, -⟩ := PidSkiplist.memStep_run upToLevelThree
    obtain ⟨s', r, hins, hiff⟩ := hplain s ⟨_, hrun⟩
    have hstatus : ((run PidSkiplist.memStep init upToLevelThree).bind fun s =>
        s.insert 3 (some 5) ⟨pidSlRandomLevel 16, false, true⟩).map Prod.snd = .ok (-ENOMEM) := rfl
    rw [hrun, Except.bind, hins] at hstatus
    obtain rfl : r = -ENOMEM := Except.ok.inj hstatus
    exact ⟨s, s', hrun, hins, hiff rfl⟩
  · obtain ⟨s, hrun, -⟩ := PidRbSkiplist.memStep_run .flat upToLevelThree
    obtain ⟨s', r, hins, hiff⟩ := hrb s ⟨_, hrun⟩
    have hstatus : ((run (PidRbSkiplist.memStep .flat) PidRbSkiplist.init upToLevelThree).bind
      fun s =>
        s.insert .flat 3 (some 5) ⟨pidSlRandomLevel 16, false, true⟩).map Prod.snd =
          .ok (-ENOMEM) := rfl
    rw [hrun, Except.bind, hins] at hstatus
    obtain rfl : r = -ENOMEM := Except.ok.inj hstatus
    exact ⟨s, s', hrun, hins, hiff rfl⟩

/-- No memory for a node of level 5: the empty list stays at level 5. -/
theorem level_left_raised :
    (¬ ∀ (s : PidSkiplist ℕ) (key : ℤ) (pid : Option ℕ) (env : NodeEnv) (s' : PidSkiplist ℕ),
        PidSkiplist.Reachable s → s.insert key pid env = .ok (s', -ENOMEM) → SameList s s') ∧
      ¬ ∀ (rb : KernelRbtree) (s : PidRbSkiplist ℕ) (key : ℤ) (pid : Option ℕ) (env : NodeEnv)
        (s' : PidRbSkiplist ℕ), PidRbSkiplist.Reachable rb s →
          s.insert rb key pid env = .ok (s', -ENOMEM) →
          PidRbSkiplist.SameRbList s s' := by
  constructor
  · intro hall
    have hrun : ((init : PidSkiplist ℕ).insert 1 (some 7) ⟨pidSlRandomLevel 65536, false, true⟩).map
        (fun r => (r.1.level, r.2)) = .ok (5, -ENOMEM) := rfl
    obtain ⟨⟨s', r⟩, hins, heq⟩ := exists_of_map_eq_ok hrun
    obtain ⟨hlevel, rfl⟩ := Prod.mk.inj heq
    have hsame := (hall init 1 (some 7) _ s' ⟨[], rfl⟩ hins).level
    rw [hlevel] at hsame
    exact absurd hsame (by decide)
  · intro hall
    have hrun : ((PidRbSkiplist.init : PidRbSkiplist ℕ).insert .flat 1 (some 7)
        ⟨pidSlRandomLevel 65536, false, true⟩).map (fun r => (r.1.level, r.2)) =
        .ok (5, -ENOMEM) := rfl
    obtain ⟨⟨s', r⟩, hins, heq⟩ := exists_of_map_eq_ok hrun
    obtain ⟨hlevel, rfl⟩ := Prod.mk.inj heq
    have hsame := (hall .flat PidRbSkiplist.init 1 (some 7) _ s' ⟨[], rfl⟩ hins).level
    rw [hlevel] at hsame
    exact absurd hsame (by decide)

end KernelPid
