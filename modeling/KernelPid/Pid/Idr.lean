import KernelPid.Pid.CyclicScan
import KernelPid.Pid.Unique

/-!
# The number of the IDR build

Without `CONFIG_PID_SKIPLIST`, a namespace has an `idr`, and `alloc_pid` takes its numbers with
`idr_alloc_cyclic`. `KernelIdr` is what `alloc_pid` relies on there. Once the cursor has passed
`RESERVED_PIDS`, the IDR branch does not go below that any more, and the scan of the skiplist branch
does: `same_number_iff` says when the two take the same number.
-/

namespace KernelPid

open Runs PidSkiplist FirstIn

/-- `RESERVED_PIDS` -/
def reservedPids : ℤ := 300

/-- The id that `idr_alloc_cyclic(start, end)` takes: the least free one that is below neither
`start` nor the cursor, or else the least free one from `start` on. -/
def idrFirst (free : ℤ → Bool) (cursor start bound : ℤ) : Option ℤ :=
  (firstIn free (max cursor start) bound).or (firstIn free start bound)

/-- `struct idr`, with `idr_get_cursor` and, for an entry `NULL`, `idr_alloc_cyclic`; `granted` says
whether there is memory for the entry. -/
structure KernelIdr (τ : Type) where
  getCursor : τ → ℤ
  used : τ → ℤ → Bool
  allocCyclic : (granted : Bool) → (start bound : ℤ) → τ → τ × ℤ
  allocCyclic_full : ∀ granted start bound i,
    idrFirst (fun k => !used i k) (getCursor i) start bound = none →
      allocCyclic granted start bound i = (i, -ENOSPC)
  allocCyclic_refused : ∀ start bound i id,
    idrFirst (fun k => !used i k) (getCursor i) start bound = some id →
      allocCyclic false start bound i = (i, -ENOMEM)
  allocCyclic_granted : ∀ start bound i id,
    idrFirst (fun k => !used i k) (getCursor i) start bound = some id →
      ∃ i', allocCyclic true start bound i = (i', id) ∧ getCursor i' = id + 1 ∧
        used i' = Function.update (used i) id true

/-- An `idr` that is its used ids and its cursor. -/
def KernelIdr.flat : KernelIdr ((ℤ → Bool) × ℤ) where
  getCursor i := i.2
  used i := i.1
  allocCyclic granted start bound i :=
    match idrFirst (fun k => !i.1 k) i.2 start bound, granted with
    | none, _ => (i, -ENOSPC)
    | some _, false => (i, -ENOMEM)
    | some id, true => ((Function.update i.1 id true, id + 1), id)
  allocCyclic_full granted start bound i h := by rw [h]
  allocCyclic_refused start bound i id h := by rw [h]
  allocCyclic_granted start bound i id h := ⟨_, by rw [h], rfl, rfl⟩

variable {σ τ : Type}

/-- One round of the level loop in the IDR branch: the `idr`, and `nr`. -/
def reserveIdr (I : KernelIdr τ) (granted : Bool) (pidMax : ℤ) (i : τ) : τ × ℤ :=
  let pidMin := if I.getCursor i > reservedPids then reservedPids else 1
  I.allocCyclic granted pidMin pidMax i

/-- The two branches find a number or not, and the same one, and leave `last_pid` behind
the cursor. -/
structure SameNumber (I : KernelIdr τ) (d : PidNamespace σ) (nr : ℤ) (i : τ) (id : ℤ) : Prop where
  finds : 0 ≤ nr ↔ 0 ≤ id
  number : 0 ≤ nr → nr = id
  cursor : d.lastPid + 1 = I.getCursor i

/-- `last_pid` has not come to `RESERVED_PIDS`, or a number behind it is free, or none below
`RESERVED_PIDS` is. -/
def LowKept (m : Bindings PidAddr) (lastPid pidMax : ℤ) : Prop :=
  lastPid < reservedPids ∨ (∃ k, lastPid < k ∧ k < pidMax ∧ m k = none) ∨
    ∀ k, 1 ≤ k → k < reservedPids → m k ≠ none

/-! ## The two searches -/

section Search

variable {p : ℤ → Bool} {lastPid pidMax k : ℤ}

/-- With nothing free behind `last_pid`, the scan takes the first number of all. -/
theorem firstIn_one_of_scanFirst (hk : scanFirst p lastPid pidMax = some k)
    (hhigh : firstIn p (lastPid + 1) pidMax = none) : firstIn p 1 pidMax = some k := by
  have hcyclic := cyclicFirst_eq_some_iff.mp hk
  by_cases hlt : lastPid + 1 < pidMax
  · have hstart : scanStart lastPid pidMax = lastPid + 1 := if_pos hlt
    rw [hstart, hhigh] at hcyclic
    rcases hcyclic with hk | ⟨-, hk⟩
    · simp at hk
    · exact firstIn_of_le hk (le_of_lt hlt)
  · have hstart : scanStart lastPid pidMax = 1 := if_neg hlt
    rw [hstart] at hcyclic
    rcases hcyclic with hk | ⟨-, hk⟩
    · exact hk
    · have hempty : (1 : ℤ) ≤ pidMax := by
        obtain ⟨h₁, h₂, -, -⟩ := firstIn_eq_some_iff.mp hk
        omega
      exact firstIn_of_le hk hempty

/-- The first number of the scan is the first one of the IDR branch, too, just in these cases. -/
theorem idrFirst_eq_some_iff (hlast : 0 ≤ lastPid) (hmax : reservedPids < pidMax)
    (hk : scanFirst p lastPid pidMax = some k) :
    idrFirst p (lastPid + 1) (if lastPid + 1 > reservedPids then reservedPids else 1) pidMax =
      some k ↔
      lastPid < reservedPids ∨ (∃ j, lastPid < j ∧ j < pidMax ∧ p j = true) ∨
        ∀ j, 1 ≤ j → j < reservedPids → p j = false := by
  unfold reservedPids at *
  have hcyclic := cyclicFirst_eq_some_iff.mp hk
  by_cases hlow : lastPid < 300
  · -- the cursor is not beyond the reserved numbers: both go from it to the end, and then from 1
    refine iff_of_true ?_ (Or.inl hlow)
    have hstart : scanStart lastPid pidMax = lastPid + 1 := if_pos (by omega)
    rw [hstart] at hcyclic
    rw [if_neg (by omega), idrFirst, max_eq_left (by omega), Option.or_eq_some_iff]
    rcases hcyclic with hhigh | ⟨hnone, hlow'⟩
    · exact Or.inl hhigh
    · refine Or.inr ⟨hnone, ?_⟩
      exact firstIn_of_le hlow' (by omega)
  · rw [if_pos (by omega), idrFirst, max_eq_left (by omega), Option.or_eq_some_iff]
    cases hhigh : firstIn p (lastPid + 1) pidMax with
    | some j =>
        -- a number behind the cursor is free: both take it
        obtain ⟨h₁, h₂, hpj, -⟩ := firstIn_eq_some_iff.mp hhigh
        have hstart : scanStart lastPid pidMax = lastPid + 1 := if_pos (by omega)
        rw [hstart, hhigh] at hcyclic
        refine iff_of_true (Or.inl ?_) (Or.inr (Or.inl ⟨j, by omega, h₂, hpj⟩))
        rcases hcyclic with hj | ⟨hnone, -⟩
        · exact hj
        · simp at hnone
    | none =>
        -- the IDR branch starts over at 300, and the scan at 1
        have hone := firstIn_one_of_scanFirst hk hhigh
        have hover : ¬ ∃ j, lastPid < j ∧ j < pidMax ∧ p j = true := by
          rintro ⟨j, h₁, h₂, hpj⟩
          rw [firstIn_eq_none_iff.mp hhigh j (by omega) h₂] at hpj
          exact Bool.noConfusion hpj
        rw [firstIn_from_iff hone (by omega)]
        simp [hlow, hover]

end Search

/-! ## Reserved numbers -/

section Reserved

variable {m : Bindings PidAddr} {lastPid k : ℤ} {env : ReserveEnv}

/-- The scan takes a free number just when it comes to one before it comes to a reserved one. -/
theorem Picks.freshPick_iff (h : Picks m lastPid env k) (hnode : ∀ k, (env.node k).ok = true) :
    FreshPick m lastPid env ↔ m k = none := by
  constructor
  · intro hfresh
    exact hfresh.unbound h
  · intro hk c h₁ h₂ hc
    by_cases hbefore : Before (startPid lastPid env.pidMax) k c
    · exact ⟨k, h.pos, h.lt_max, hbefore, hk, hnode k⟩
    · -- then the scan would have taken `c`
      have hne : c ≠ k := by
        rintro rfl
        rw [hc] at hk
        simp at hk
      refine absurd ⟨by rw [hc]; rfl, Or.inr (hnode c)⟩ (h.first c h₁ h₂ ?_)
      unfold Before at hbefore ⊢
      split at hbefore <;> split <;> omega

theorem PicksNone.bound (h : PicksNone m env) (hnode : ∀ k, (env.node k).ok = true) (h₁ : 1 ≤ k)
    (h₂ : k < env.pidMax) : ∃ p, m k = some (some p) := by
  cases hk : m k with
  | none => exact absurd ⟨by rw [hk]; rfl, Or.inr (hnode k)⟩ (h k h₁ h₂)
  | some v =>
      cases v with
      | none => exact absurd ⟨by rw [hk]; rfl, Or.inr (hnode k)⟩ (h k h₁ h₂)
      | some p => exact ⟨p, rfl⟩

/-- A number that is free for the scan may be a reserved one, which the IDR branch does not take. -/
theorem unbound_of_idrFirst {start bound pidMax : ℤ}
    (h : idrFirst (unbound m) start bound pidMax = some k) : m k = none := by
  have hun : unbound m k = true := by
    rcases Option.or_eq_some_iff.mp h with hhigh | ⟨-, hlow⟩
    · exact (firstIn_eq_some_iff.mp hhigh).2.2.1
    · exact (firstIn_eq_some_iff.mp hlow).2.2.1
  exact Option.isNone_iff_eq_none.mp hun

theorem PicksNone.idrFirst_eq_none {cursor start : ℤ} (h : PicksNone m env)
    (hnode : ∀ k, (env.node k).ok = true) (hstart : 1 ≤ start) :
    idrFirst (unbound m) cursor start env.pidMax = none := by
  have hused : ∀ k, 1 ≤ k → k < env.pidMax → unbound m k = false := by
    intro k h₁ h₂
    obtain ⟨p, hp⟩ := h.bound hnode h₁ h₂
    simp [unbound, hp]
  rw [idrFirst, Option.or_eq_none_iff, firstIn_eq_none_iff, firstIn_eq_none_iff]
  constructor
  · intro k h₁ h₂
    exact hused k (by omega) h₂
  · intro k h₁ h₂
    exact hused k (by omega) h₂

/-- A free number that comes first among those that are not found comes first among the
free ones. -/
theorem scanFirst_unbound {pidMax : ℤ} (h : scanFirst (unseen m) lastPid pidMax = some k)
    (hk : m k = none) : scanFirst (unbound m) lastPid pidMax = some k := by
  have hun : ∀ i, unseen m i = false → unbound m i = false := by
    intro i hi
    unfold unseen at hi
    unfold unbound
    cases hmi : m i with
    | none => simp [hmi] at hi
    | some v => rfl
  have hkun : unbound m k = true := by simp [unbound, hk]
  apply cyclicFirst_eq_some_iff.mpr
  rcases cyclicFirst_eq_some_iff.mp h with hhigh | ⟨hnone, hlow⟩
  · left
    obtain ⟨h₁, h₂, -, hfirst⟩ := firstIn_eq_some_iff.mp hhigh
    exact firstIn_eq_some_iff.mpr ⟨h₁, h₂, hkun, fun i hi₁ hi₂ => hun i (hfirst i hi₁ hi₂)⟩
  · right
    obtain ⟨h₁, h₂, -, hfirst⟩ := firstIn_eq_some_iff.mp hlow
    refine ⟨?_, firstIn_eq_some_iff.mpr ⟨h₁, h₂, hkun, fun i hi₁ hi₂ => hun i (hfirst i hi₁ hi₂)⟩⟩
    apply firstIn_eq_none_iff.mpr
    intro i hi₁ hi₂
    exact hun i (firstIn_eq_none_iff.mp hnone i hi₁ hi₂)

end Reserved

/-! ## The two branches -/

section Branches

variable {I : KernelIdr τ} {i : τ} {pidMax : ℤ}

/-- The least free id that the IDR branch comes to. -/
def idrPick (I : KernelIdr τ) (i : τ) (pidMax : ℤ) : Option ℤ :=
  idrFirst (fun k => !I.used i k) (I.getCursor i)
    (if I.getCursor i > reservedPids then reservedPids else 1) pidMax

theorem reserveIdr_none (granted : Bool) (h : idrPick I i pidMax = none) :
    reserveIdr I granted pidMax i = (i, -ENOSPC) :=
  I.allocCyclic_full granted _ _ i h

theorem reserveIdr_some {id : ℤ} (h : idrPick I i pidMax = some id) :
    ∃ i', reserveIdr I true pidMax i = (i', id) ∧ I.getCursor i' = id + 1 ∧
      I.used i' = Function.update (I.used i) id true :=
  I.allocCyclic_granted _ _ i id h

/-- With a number that the scan took, the two branches agree if the IDR branch takes it too. -/
theorem sameNumber_iff {d : PidNamespace σ} {nr : ℤ} (hnr : 1 ≤ nr) (hd : d.lastPid = nr) :
    SameNumber I d nr (reserveIdr I true pidMax i).1 (reserveIdr I true pidMax i).2 ↔
      idrPick I i pidMax = some nr := by
  cases hpick : idrPick I i pidMax with
  | none =>
      rw [reserveIdr_none true hpick]
      refine iff_of_false (fun hsame => ?_) (by simp)
      have hneg : 0 ≤ -ENOSPC := hsame.finds.mp (by omega)
      exact absurd hneg (by decide)
  | some id =>
      obtain ⟨i', hrun, hcursor, -⟩ := reserveIdr_some hpick
      rw [hrun, Option.some.injEq]
      constructor
      · intro hsame
        exact (hsame.number (by omega)).symm
      · rintro rfl
        exact ⟨Iff.rfl, fun _ => rfl, by rw [hd, hcursor]⟩

/-- With `last_pid` just behind the cursor and memory for everything: the two branches take the same
number, or none, if and only if the scan comes to a free number before any reserved one, and does
not go below `RESERVED_PIDS` where the IDR branch does not. -/
theorem same_number_iff (I : KernelIdr τ) (i : τ) (d : PidNamespace (PidSkiplist PidAddr))
    (m : Bindings PidAddr) (env : ReserveEnv) (retval : ℤ) (hm : Represents d.pidSl m)
    (hused : ∀ k, I.used i k = (m k).isSome) (hcursor : I.getCursor i = d.lastPid + 1)
    (hlast : 0 ≤ d.lastPid) (hlast' : d.lastPid < 2 ^ 31) (hmax : reservedPids < env.pidMax)
    (hmax' : env.pidMax < 2 ^ 31) (hnode : ∀ k, (env.node k).ok = true) :
    ∃ d' r nr, reserve plainList env d retval = .ok (d', r, nr) ∧
      (SameNumber I d' nr (reserveIdr I true env.pidMax i).1 (reserveIdr I true env.pidMax i).2 ↔
        FreshPick m d.lastPid env ∧ LowKept m d.lastPid env.pidMax) := by
  have hstart : startPid d.lastPid env.pidMax = scanStart d.lastPid env.pidMax :=
    startPid_eq hlast (by omega)
  have hfree : (fun k => !I.used i k) = unbound m := by
    funext k
    rw [hused, unbound]
    cases m k <;> rfl
  have hmax₁ : 1 < env.pidMax := lt_trans (by decide) hmax
  have hpicks : idrPick I i env.pidMax = idrFirst (unbound m) (d.lastPid + 1)
      (if d.lastPid + 1 > reservedPids then reservedPids else 1) env.pidMax := by
    rw [idrPick, hcursor, hfree]
  rcases reserve_eq hm hnode hlast hmax₁ hstart retval with
    ⟨nr, sl, hpick, hfirst, hrun, -⟩ | ⟨hnone, -, hrun⟩
  · refine ⟨_, _, nr, hrun, ?_⟩
    rw [sameNumber_iff hpick.pos rfl, hpick.freshPick_iff hnode, hpicks]
    by_cases hk : m nr = none
    · rw [idrFirst_eq_some_iff hlast hmax (scanFirst_unbound hfirst hk)]
      simp [hk, LowKept, unbound, Option.isSome_iff_ne_none]
    · -- the number is a reserved one, which is not free in the `idr`
      exact iff_of_false (fun hid => hk (unbound_of_idrFirst hid)) fun hboth => hk hboth.1
  · -- no number is free, so neither branch finds one
    have hmin : (1 : ℤ) ≤ if d.lastPid + 1 > reservedPids then reservedPids else 1 := by
      split <;> decide
    have hidr : idrPick I i env.pidMax = none := by
      rw [hpicks]
      exact hnone.idrFirst_eq_none hnode hmin
    refine ⟨_, _, _, hrun, ?_⟩
    rw [reserveIdr_none true hidr]
    have hneither : (0 : ℤ) ≤ -1 ↔ 0 ≤ -ENOSPC := by decide
    refine iff_of_true ⟨hneither, fun h => absurd h (by decide), hcursor.symm⟩
      ⟨fun c h₁ h₂ hc => ?_, ?_⟩
    · obtain ⟨p, hp⟩ := hnone.bound hnode h₁ h₂
      simp [hp] at hc
    · right
      right
      intro k h₁ h₂ hk
      obtain ⟨p, hp⟩ := hnone.bound hnode h₁ (lt_trans h₂ hmax)
      simp [hp] at hk

/-- A list with two pids and a reserved number. -/
def twoPidsAndReserved : PidSkiplist PidAddr :=
  listAfter [.insert 1 (some 0) ⟨pidSlRandomLevel 1, true, true⟩,
    .insert 4 (some 2) ⟨pidSlRandomLevel 256, true, true⟩,
    .insert 2 none ⟨pidSlRandomLevel 16, true, true⟩]

/-- The number 2 is reserved, and `last_pid` is there. -/
theorem same_number_iff_third : ∃ d' r nr,
    reserve plainList ⟨32768, fun _ => ⟨pidSlRandomLevel 16, true, true⟩⟩
        ⟨twoPidsAndReserved, 2, pidnsAdding + 2⟩ 0 = .ok (d', r, nr) ∧
      (SameNumber KernelIdr.flat d' nr
          (reserveIdr KernelIdr.flat true 32768
            (fun k => (twoPidsAndReserved.bindings k).isSome, 3)).1
          (reserveIdr KernelIdr.flat true 32768
            (fun k => (twoPidsAndReserved.bindings k).isSome, 3)).2 ↔
        FreshPick twoPidsAndReserved.bindings 2
            ⟨32768, fun _ => ⟨pidSlRandomLevel 16, true, true⟩⟩ ∧
          LowKept twoPidsAndReserved.bindings 2 32768) := by
  have hm : Represents twoPidsAndReserved twoPidsAndReserved.bindings := represents_listAfter _
  exact same_number_iff KernelIdr.flat (fun k => (twoPidsAndReserved.bindings k).isSome, 3)
    ⟨twoPidsAndReserved, 2, pidnsAdding + 2⟩ twoPidsAndReserved.bindings
    ⟨32768, fun _ => ⟨pidSlRandomLevel 16, true, true⟩⟩ 0 hm (fun _ => rfl) rfl
      (by decide) (by decide)
    (by decide) (by decide) fun _ => rfl

/-- `last_pid` is at the end of an empty namespace: the IDR branch goes on at 300, and the
scan at 1. -/
theorem scan_takes_reserved_pid : ∃ d' r nr,
    reserve plainList ⟨32768, fun _ => ⟨pidSlRandomLevel 1, true, true⟩⟩
      ⟨init, 32767, pidnsAdding⟩ 0 =
        .ok (d', r, nr) ∧
      ¬ SameNumber KernelIdr.flat d' nr
        (reserveIdr KernelIdr.flat true 32768 (fun _ => false, 32768)).1
        (reserveIdr KernelIdr.flat true 32768 (fun _ => false, 32768)).2 := by
  have hscan : (reserve plainList ⟨32768, fun _ => ⟨pidSlRandomLevel 1, true, true⟩⟩
      ⟨init, 32767, pidnsAdding⟩ 0).map (fun x => x.2.2) = .ok 1 := rfl
  have hidr : (reserveIdr KernelIdr.flat true 32768 (fun _ => false, 32768)).2 = 300 := rfl
  obtain ⟨⟨d', r, nr⟩, hrun, hnr⟩ := exists_of_map_eq_ok hscan
  refine ⟨d', r, nr, hrun, fun hsame => ?_⟩
  have hone : nr = 1 := hnr
  have heq := hsame.number (by omega)
  rw [hidr, hone] at heq
  exact absurd heq (by decide)

end Branches

end KernelPid
