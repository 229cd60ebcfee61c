import KernelPid.RbSkiplist.Repeats
import KernelPid.Skiplist.Memory

/-!
# Who frees the nodes of the RB skip list

The same as for the plain list, in all states of the RB list: a second node for a key of the tree is
a node of the list like any other, and the tree only holds nodes that the list has. What the walk of
`destroy` does to the tree has no effect on the nodes it frees (`map_destroy`).
-/

namespace KernelPid

open Runs Tower

namespace PidRbSkiplist

open PidSkiplist

variable {α : Type} {s s' : PidRbSkiplist α} {h x : Addr} {L L' : List Addr} {op : WriteOp α}

/-- The walk of `destroy` frees what that of the plain list frees. -/
theorem map_freeChain (rb : KernelRbtree) (fuel : ℕ) (x : Option Addr) (s : PidRbSkiplist α) :
    (freeChain rb fuel x s).map (fun s => s.toPidSkiplist) =
      PidSkiplist.freeChain fuel x s.toPidSkiplist := by
  induction fuel generalizing x s with
  | zero => rfl
  | succ fuel ih =>
      cases x with
      | none => rfl
      | some x =>
          -- what is taken out of the tree is not looked at
          have hlist : (if s.inRbTree x then { s with topRbRoot := rb.erase x s.topRbRoot }
            else s).toPidSkiplist
              = s.toPidSkiplist := by
            split <;> rfl
          simp only [freeChain, PidSkiplist.freeChain, hlist]
          cases s.toPidSkiplist.forward x 0 with
          | error e => rfl
          | ok next =>
              simp only [ok_bind]
              cases s.toPidSkiplist.kfreeNode x with
              | error e => rfl
              | ok sl => exact ih next _

theorem map_destroy (rb : KernelRbtree) (s : PidRbSkiplist α) :
    (s.destroy rb).map (fun s => s.toPidSkiplist) = s.toPidSkiplist.destroy := by
  simp only [destroy, PidSkiplist.destroy]
  cases s.getHeader with
  | error e => rfl
  | ok header =>
      simp only [ok_bind]
      cases s.toPidSkiplist.forward header 0 with
      | error e => rfl
      | ok node =>
          simp only [ok_bind, ← map_freeChain rb]
          cases freeChain rb (s.brk + 1) node s with
          | error e => rfl
          | ok t =>
              simp only [ok_bind, Except.map]
              cases t.toPidSkiplist.kfreeNode header with
              | error e => rfl
              | ok sl => rfl

/-- What a writer call does to the memory of the list. -/
theorem Written.change (hw : Written s h L op s' L') :
    Change s.toPidSkiplist s'.toPidSkiplist h L L' := by
  cases hw with
  | @replaced k v env p _ _ _ => exact .kept rfl rfl rfl (setPid_ht s.toPidSkiplist p v)
  | added hcut _ _ hadded _ => exact .added hcut.split hadded
  | refused henv hsl hu => exact insertNew_fail_change henv hsl hu
  | absent => exact .kept rfl rfl rfl rfl
  | removed hL _ _ _ hrem => exact .removed hL hrem

/-- `pid_sl_node_rcu_free`, the callback of node `x`. -/
def nodeRcuFree (s : PidRbSkiplist α) (x : Addr) : Except Fault (PidRbSkiplist α) := do
  let sl ← s.toPidSkiplist.nodeRcuFree x
  .ok { s with toPidSkiplist := sl }

/-- One step of the RB list; a callback that is not pending does not run. -/
def memStep (rb : KernelRbtree) (s : PidRbSkiplist α) : MemAct α → Except Fault (PidRbSkiplist α)
  | .write op => do
    let (s, _) ← s.write rb op
    .ok s
  | .callback x => if x ∈ s.rcu then s.nodeRcuFree x else .ok s

theorem RbShape.callback (hs : RbShape s h L) (hx : x ∉ h :: L) :
    RbShape { s with toPidSkiplist := { s.freeNode x with rcu := s.rcu.erase x } } h L := by
  have hne : ∀ y ∈ L, y ≠ x := fun y hy hc => hx (hc ▸ List.mem_cons_of_mem h hy)
  refine ⟨(hs.toShape.freeNode hx).of_eq rfl rfl rfl rfl rfl, hs.tree, fun y hy => ?_, hs.flag, ?_⟩
  · show (s.freeNode x).ht y = pidSlMaxLevel
    rw [freeNode_ht (hne y (hs.tree.subset hy))]
    exact hs.tree_ht y hy
  · refine hs.sorted.imp_of_mem fun {p q} hp hq hlt => ?_
    have hkey : ∀ y ∈ L, (s.freeNode x).key y = s.key y := fun y hy => freeNode_key (hne y hy)
    show (s.freeNode x).key p < (s.freeNode x).key q ∨
      (s.freeNode x).key p = (s.freeNode x).key q ∧ _
    rw [hkey p hp, hkey q hq]
    exact hlt

theorem RbShape.memStep (rb : KernelRbtree) (hs : RbShape s h L) (hm : Held s.toPidSkiplist h L)
    (a : MemAct α) :
    ∃ s', PidRbSkiplist.memStep rb s a = .ok s' ∧
      ∃ L', RbShape s' h L' ∧ Held s'.toPidSkiplist h L' := by
  cases a with
  | write op =>
      obtain ⟨s', retval, L', hcall, hw⟩ := hs.write rb op
      refine ⟨s', ?_, L', hw.rbShape hs, hm.change hs.toShape hw.change⟩
      simp only [PidRbSkiplist.memStep, hcall, ok_bind]
  | callback x =>
      by_cases hx : x ∈ s.rcu
      · obtain ⟨hxL, hm'⟩ := hm.callback hx
        refine ⟨{ s with toPidSkiplist := { s.freeNode x with rcu := s.rcu.erase x } }, ?_, L,
          hs.callback hxL, hm'⟩
        simp only [PidRbSkiplist.memStep, if_pos hx, nodeRcuFree,
          nodeRcuFree_eq (hm.pending x hx), ok_bind]
      · exact ⟨s, by simp only [PidRbSkiplist.memStep, if_neg hx], L, hs, hm⟩

theorem memStep_run (rb : KernelRbtree) (as : List (MemAct α)) :
    ∃ s, run (memStep rb) (init : PidRbSkiplist α) as = .ok s ∧
      ∃ L, RbShape s 0 L ∧ Held s.toPidSkiplist 0 L :=
  run_invariant_always
    (I := fun s : PidRbSkiplist α => ∃ L, RbShape s 0 L ∧ Held s.toPidSkiplist 0 L)
    (fun _ a ⟨_, hs, hm⟩ => hs.memStep rb hm a) ⟨[], rbShape_init, held_init⟩ as

/-- Writer calls and callbacks make `s` of an initialised list. -/
def Reachable (rb : KernelRbtree) (s : PidRbSkiplist α) : Prop :=
  ∃ as, run (memStep rb) init as = .ok s

theorem Reachable.rbShape {rb : KernelRbtree} (hs : Reachable rb s) : ∃ L, RbShape s 0 L := by
  obtain ⟨as, hrun⟩ := hs
  obtain ⟨s', hrun', L, hshape, -⟩ := memStep_run rb as
  obtain rfl : s = s' := Except.ok.inj (hrun.symm.trans hrun')
  exact ⟨L, hshape⟩

end PidRbSkiplist

/-- After any sequence of insertions, removals and callbacks on an initialised list of either
kind, `destroy` and the callbacks that are pending then free every block that was allocated
exactly once. -/
theorem freed_exactly_once {α : Type} (rb : KernelRbtree) (as : List (PidSkiplist.MemAct α)) :
    (∃ s, run PidSkiplist.memStep (PidSkiplist.init : PidSkiplist α) as = .ok s ∧
      PidSkiplist.FreesAll s s.destroy) ∧
    ∃ s, run (PidRbSkiplist.memStep rb) (PidRbSkiplist.init : PidRbSkiplist α) as = .ok s ∧
      PidSkiplist.FreesAll s.toPidSkiplist ((s.destroy rb).map fun s => s.toPidSkiplist) := by
  refine ⟨PidSkiplist.memStep_run_freesAll as, ?_⟩
  obtain ⟨s, hrun, L, hs, hm⟩ := PidRbSkiplist.memStep_run rb as
  refine ⟨s, hrun, ?_⟩
  rw [PidRbSkiplist.map_destroy]
  exact hm.freesAll hs.toShape

end KernelPid
