import Mathlib.Data.List.Pairwise
import Mathlib.Data.List.Sort
import KernelPid.Pid.System

/-!
# The kill loop of `zap_pid_ns_processes`

The loop stops at the first `NULL` that `pid_skiplist_iter_next_rcu` returns. That is the end of the
list, or a number that an `alloc_pid` call has reserved and not yet published. So the loop reaches
every process of the namespace just when no reserved number, from 2 on, lies below a published one
(`zap_visits_all_iff`); `reserved_number_hides_process` is a run in which one does.
-/

namespace KernelPid

open Runs PidSkiplist

/-! ## The loop -/

/-- `while ((pid = pid_skiplist_iter_next_rcu(&ns->pid_sl, &cursor, nr)) != NULL)`, from `cursor`
on: the pids that it visits. -/
def killLoop (sl : PidSkiplist PidAddr) (nr : ℤ) : ℕ → Option Addr → Except Fault (List PidAddr)
  | 0, _ => .error .diverge
  | fuel + 1, cursor => do
    match ← sl.iterNextRcu cursor nr with
    | (_, none) => .ok []
    | (cursor, some pid) =>
      let pids ← killLoop sl nr fuel cursor
      .ok (pid :: pids)

/-- The pids that `zap_pid_ns_processes(ns)` visits. -/
def zapVisits {ι : Type} (K : Kernel (PidSkiplist PidAddr) ι) (ns : ι) :
    Except Fault (List PidAddr) :=
  killLoop (K.ns ns).pidSl 2 ((K.ns ns).pidSl.brk + 1) none

/-- The loop visits each pid that is bound to a number from 2 on once, in ascending order of the
numbers. -/
def ZapVisitsAll {ι : Type} (K : Kernel (PidSkiplist PidAddr) ι) (ns : ι) : Prop :=
  ∃ xs : List (ℤ × PidAddr), (xs.Pairwise fun x y => x.1 < y.1) ∧
    (∀ nr p, (nr, p) ∈ xs ↔ 2 ≤ nr ∧ (K.ns ns).pidSl.bindings nr = some (some p)) ∧
    (xs.map Prod.snd).Nodup ∧ zapVisits K ns = .ok (xs.map Prod.snd)

/-- No number from 2 on that is bound to `NULL` lies below one that is bound to a pid. -/
def NoneReservedBelow (m : Bindings PidAddr) : Prop :=
  ∀ nr nr' p, 2 ≤ nr → m nr = some none → m nr' = some (some p) → nr' < nr

/-! ## What the loop visits -/

section Visits

variable {α β : Type}

/-- The values up to the first `NULL`. -/
def untilNull (f : α → Option β) : List α → List β
  | [] => []
  | x :: xs => match f x with
    | none => []
    | some v => v :: untilNull f xs

/-- These are all the values just when no `NULL` comes before one. -/
theorem untilNull_eq_filterMap_iff {f : α → Option β} {xs : List α} :
    untilNull f xs = xs.filterMap f ↔ xs.Pairwise fun x y => f x = none → f y = none := by
  induction xs with
  | nil => simp [untilNull]
  | cons x xs ih =>
      rw [List.pairwise_cons, ← ih]
      cases hx : f x with
      | some v => simp [untilNull, hx]
      | none =>
          simp only [untilNull, hx, List.filterMap_cons_none hx, true_implies]
          constructor
          · intro hnil
            have hall := List.filterMap_eq_nil_iff.mp hnil.symm
            refine ⟨hall, ?_⟩
            rw [ih]
            exact List.pairwise_of_forall_mem_list fun y _ z hz _ => hall z hz
          · rintro ⟨hall, -⟩
            exact (List.filterMap_eq_nil_iff.mpr hall).symm

end Visits

variable {s : PidSkiplist PidAddr} {h x : Addr} {A B L : List Addr}

/-- With the cursor on a node, the loop goes through the nodes behind it. -/
theorem PidSkiplist.Shape.killLoop_some (hs : Shape s h (A ++ x :: B)) (nr : ℤ) (fuel : ℕ)
    (hfuel : B.length < fuel) : killLoop s nr fuel (some x) = .ok (untilNull s.pid B) := by
  induction B generalizing A x fuel with
  | nil =>
      obtain ⟨fuel, rfl⟩ : ∃ f, fuel = f + 1 := ⟨fuel - 1, by omega⟩
      simp only [killLoop, hs.iterNextRcu_some nr]
      rfl
  | cons b B ih =>
      obtain ⟨fuel, rfl⟩ : ∃ f, fuel = f + 1 := ⟨fuel - 1, by omega⟩
      have hb : s.iterNextRcu (some x) nr = .ok (some b, s.pid b) := by
        rw [hs.iterNextRcu_some nr, if_neg (List.cons_ne_nil b B)]
        rfl
      cases hp : s.pid b with
      | none => simp only [killLoop, hb, ok_bind, hp, untilNull]
      | some p =>
          have hs' : Shape s h ((A ++ [x]) ++ b :: B) := by
            rw [List.append_assoc]
            exact hs
          have hrest := ih hs' fuel (by simp at hfuel; omega)
          simp only [killLoop, hb, ok_bind, hp, hrest, untilNull]

/-- The loop visits the pids of the nodes from the number `nr` on, up to the first `NULL`. -/
theorem PidSkiplist.Inv.killLoop_eq (hs : Inv s h L) (nr : ℤ) :
    killLoop s nr (s.brk + 1) none = .ok (untilNull s.pid (above s nr L)) := by
  have hlen : L.length + 1 < s.brk + 1 := by
    have := hs.toShape.length_lt_brk
    omega
  have hsplit := below_append_above s nr L
  simp only [killLoop, hs.iterNextRcu_none]
  cases hab : above s nr L with
  | nil => rfl
  | cons x B =>
      simp only [List.head?_cons, Option.bind_some, ok_bind]
      cases hp : s.pid x with
      | none => simp only [untilNull, hp]
      | some p =>
          rw [hab] at hsplit
          have hs' : Shape s h (below s nr L ++ x :: B) := by
            rw [hsplit]
            exact hs.toShape
          have hB : B.length < s.brk := by
            have := congrArg List.length hsplit
            simp only [List.length_append, List.length_cons] at this
            omega
          have hrest := hs'.killLoop_some nr s.brk hB
          simp only [hrest, ok_bind, untilNull, hp]

/-! ## When it visits all of them -/

/-- The numbers bound to a pid, with the pid. -/
def pidEntries (s : PidSkiplist PidAddr) (xs : List Addr) : List (ℤ × PidAddr) :=
  xs.filterMap fun x => (s.pid x).map fun p => (s.key x, p)

theorem mem_pidEntries {xs : List Addr} {nr : ℤ} {p : PidAddr} :
    (nr, p) ∈ pidEntries s xs ↔ ∃ x ∈ xs, s.key x = nr ∧ s.pid x = some p := by
  simp only [pidEntries, List.mem_filterMap, Option.map_eq_some_iff, Prod.mk.injEq]
  constructor
  · rintro ⟨x, hx, p', hp, rfl, rfl⟩
    exact ⟨x, hx, rfl, hp⟩
  · rintro ⟨x, hx, rfl, hp⟩
    exact ⟨x, hx, p, hp, rfl, rfl⟩

theorem pidEntries_pairwise {xs : List Addr} (hxs : xs.Pairwise fun x y => s.key x < s.key y) :
    (pidEntries s xs).Pairwise fun x y => x.1 < y.1 := by
  refine List.pairwise_filterMap.mpr (hxs.imp fun {x y} hlt a ha b hb => ?_)
  obtain ⟨p, -, rfl⟩ := Option.map_eq_some_iff.mp ha
  obtain ⟨q, -, rfl⟩ := Option.map_eq_some_iff.mp hb
  exact hlt

theorem pidEntries_map_snd (xs : List Addr) :
    (pidEntries s xs).map Prod.snd = xs.filterMap s.pid := by
  induction xs with
  | nil => rfl
  | cons x xs ih =>
      cases hp : s.pid x with
      | none => simpa [pidEntries, hp] using ih
      | some p => simpa [pidEntries, hp] using ih

/-- Two ascending lists with the same entries are the same. -/
theorem eq_of_ascending {xs ys : List (ℤ × PidAddr)} (hxs : xs.Pairwise fun x y => x.1 < y.1)
    (hys : ys.Pairwise fun x y => x.1 < y.1) (h : ∀ nr p, (nr, p) ∈ xs ↔ (nr, p) ∈ ys) :
    xs = ys := by
  have : Std.Irrefl fun x y : ℤ × PidAddr => x.1 < y.1 := ⟨fun x => lt_irrefl x.1⟩
  have : Std.Antisymm fun x y : ℤ × PidAddr => x.1 < y.1 :=
    ⟨fun x y h₁ h₂ => absurd h₁ (lt_asymm h₂)⟩
  exact hxs.eq_of_mem_iff hys fun x => h x.1 x.2

variable {ι : Type}

/-- The loop goes through the nodes with the keys from 2 on. -/
theorem bindings_above_iff {s : PidSkiplist PidAddr} (hs : Inv s h L) {nr : ℤ}
    {v : Option PidAddr} :
    (2 ≤ nr ∧ s.bindings nr = some v) ↔ ∃ x ∈ above s 2 L, s.key x = nr ∧ s.pid x = v := by
  rw [hs.bindings_eq_some_iff]
  constructor
  · rintro ⟨hk, x, hx, rfl, hv⟩
    exact ⟨x, (mem_above_iff hs.sorted).mpr ⟨hx, hk⟩, rfl, hv⟩
  · rintro ⟨x, hx, rfl, hv⟩
    obtain ⟨hx, hk⟩ := (mem_above_iff hs.sorted).mp hx
    exact ⟨hk, x, hx, rfl, hv⟩

/-- Among numbers bound to pids of their own, the loop visits all when it does not stop early. -/
theorem zapVisitsAll_iff_untilNull {K : Kernel (PidSkiplist PidAddr) ι} {n : ι}
    (hs : Inv (K.ns n).pidSl h L)
    (hown : ∀ nr nr' p, (K.ns n).pidSl.bindings nr = some (some p) →
      (K.ns n).pidSl.bindings nr' = some (some p) → nr = nr') :
    ZapVisitsAll K n ↔ untilNull (K.ns n).pidSl.pid (above (K.ns n).pidSl 2 L) =
      (above (K.ns n).pidSl 2 L).filterMap (K.ns n).pidSl.pid := by
  set s := (K.ns n).pidSl
  set X := above s 2 L
  have hXsorted : X.Pairwise fun x y => s.key x < s.key y := above_sorted s 2 hs.sorted
  have hentries : ∀ nr p, (nr, p) ∈ pidEntries s X ↔ 2 ≤ nr ∧ s.bindings nr = some (some p) :=
    fun nr p => mem_pidEntries.trans (bindings_above_iff hs).symm
  have hvisits : zapVisits K n = .ok (untilNull s.pid X) := hs.killLoop_eq 2
  rw [← pidEntries_map_snd]
  constructor
  · rintro ⟨xs, hsorted, hxs, -, hrun⟩
    have heq : xs = pidEntries s X := eq_of_ascending hsorted (pidEntries_pairwise hXsorted)
      fun nr p => (hxs nr p).trans (hentries nr p).symm
    rw [hvisits, heq] at hrun
    exact Except.ok.inj hrun
  · intro heq
    refine ⟨pidEntries s X, pidEntries_pairwise hXsorted, hentries, ?_, by rw [hvisits, heq]⟩
    refine List.pairwise_map.mpr ((pidEntries_pairwise hXsorted).imp_of_mem ?_)
    rintro ⟨nr, p⟩ ⟨nr', p'⟩ hx hy hlt rfl
    have := hown nr nr' p ((hentries nr p).mp hx).2 ((hentries nr' p).mp hy).2
    exact absurd hlt (by simp [this])

/-- Among numbers bound to pids of their own, the loop visits all just when no reserved one lies
below. -/
theorem zapVisitsAll_iff {K : Kernel (PidSkiplist PidAddr) ι} {n : ι} (hs : Inv (K.ns n).pidSl h L)
    (hown : ∀ nr nr' p, (K.ns n).pidSl.bindings nr = some (some p) →
      (K.ns n).pidSl.bindings nr' = some (some p) → nr = nr') :
    ZapVisitsAll K n ↔ NoneReservedBelow (K.ns n).pidSl.bindings := by
  rw [zapVisitsAll_iff_untilNull hs hown, untilNull_eq_filterMap_iff]
  set s := (K.ns n).pidSl
  set X := above s 2 L
  have hXsorted : X.Pairwise fun x y => s.key x < s.key y := above_sorted s 2 hs.sorted
  constructor
  · intro hstop nr nr' p hnr hres hpub
    by_contra hle
    obtain ⟨x, hx, rfl, hvx⟩ := (bindings_above_iff hs).mp ⟨hnr, hres⟩
    obtain ⟨y, hy, rfl, hvy⟩ := (bindings_above_iff hs).mp ⟨le_trans hnr (not_lt.mp hle), hpub⟩
    have hne : x ≠ y := by
      rintro rfl
      rw [hvx] at hvy
      simp at hvy
    have hlt : s.key x < s.key y :=
      lt_of_le_of_ne (not_lt.mp hle) fun heq => hne (hs.eq_of_key_eq (mem_of_mem_above hx)
        (mem_of_mem_above hy) heq)
    -- a node with a smaller key comes before the other one
    have hbefore : ∀ a ∈ X, ∀ b ∈ X, s.key a < s.key b → s.pid a = none → s.pid b = none :=
      fun a ha b hb => List.Pairwise.forall_of_forall_of_flip
        (R := fun a b => s.key a < s.key b → s.pid a = none → s.pid b = none)
        (fun _ _ hlt => absurd hlt (lt_irrefl _)) (hstop.imp fun himp _ hnone => himp hnone)
        (hXsorted.imp fun hab hba => absurd hba (lt_asymm hab)) ha hb
    have hvy' := hbefore x hx y hy hlt hvx
    rw [hvy'] at hvy
    simp at hvy
  · intro hnone
    refine hXsorted.imp_of_mem fun {x y} hx hy hlt hvx => ?_
    cases hvy : s.pid y with
    | none => rfl
    | some p =>
        have hnr := (bindings_above_iff hs).mpr ⟨x, hx, rfl, hvx⟩
        have hnr' := (bindings_above_iff hs).mpr ⟨y, hy, rfl, hvy⟩
        exact absurd (hnone _ _ p hnr.1 hnr.2 hnr'.2) (not_lt.mpr (le_of_lt hlt))

/-- In every state of every run, `zap_pid_ns_processes` visits every process of the namespace once,
in ascending order, if and only if no reserved number lies below a published one. -/
theorem zap_visits_all_iff [DecidableEq ι] (T : PidNsTree ι) (as : List (Act ι)) :
    ∃ s, run (sysStep plainList T) (Sys.init init) as = .ok s ∧
      ∀ n, ZapVisitsAll s.K n ↔ NoneReservedBelow (s.K.ns n).pidSl.bindings := by
  obtain ⟨s, S, hrun, hs, hS⟩ := plain_run_shape T as
  refine ⟨s, hrun, fun n => ?_⟩
  have hrep := (hs.K.ns n).pidSl
  obtain ⟨h, L, hinv, -⟩ := id hrep
  refine zapVisitsAll_iff hinv fun nr nr' p hb hb' => ?_
  -- a pid that is bound to both numbers has them both in `n`
  rw [← hrep.eq_bindings] at hb hb'
  obtain ⟨⟨-, -, d, ns, hd, hnum⟩, d₁, hd₁, ho₁⟩ := hS.bound hb
  obtain ⟨-, d₂, hd₂, ho₂⟩ := hS.bound hb'
  obtain rfl := Option.some.inj (hd.symm.trans hd₁)
  obtain rfl := Option.some.inj (hd.symm.trans hd₂)
  exact hnum.nr_unique ho₁ ho₂

/-- A call has 2 reserved while 3 is published: the loop stops at 2, and process 3 is
not visited. -/
theorem reserved_number_hides_process :
    ∃ s, run (sysStep plainList soleNs) (Sys.init init)
        [.start 0 () (grantAll 32768), .step 0, .step 0, .start 1 () (grantAll 32768), .step 1,
          .start 2 () (grantAll 32768), .step 2, .step 2] = .ok s ∧ ¬ ZapVisitsAll s.K () := by
  have hrun : (run (sysStep plainList soleNs) (Sys.init init)
      [.start 0 () (grantAll 32768), .step 0, .step 0, .start 1 () (grantAll 32768), .step 1,
        .start 2 () (grantAll 32768), .step 2, .step 2]).map
        (fun s => (zapVisits s.K (), (s.K.ns ()).pidSl.bindings 3)) =
      .ok (.ok [], some (some 2)) := rfl
  obtain ⟨s, hs, heq⟩ := exists_of_map_eq_ok hrun
  obtain ⟨hvisits, hbound⟩ := Prod.mk.inj heq
  refine ⟨s, hs, ?_⟩
  rintro ⟨xs, -, hxs, -, hall⟩
  rw [hvisits] at hall
  have hnil : xs = [] := List.map_eq_nil_iff.mp (Except.ok.inj hall).symm
  have hmem := (hxs 3 2).mpr ⟨by decide, hbound⟩
  rw [hnil] at hmem
  exact List.not_mem_nil hmem

end KernelPid
