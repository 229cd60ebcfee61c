import KernelPid.Lib.FirstIn
import KernelPid.Pid.Reserve

/-!
# The cyclic scan

When every node can be made, one level of `alloc_pid` takes the first number that
`pid_skiplist_lookup_rcu` does not find, counting up from behind `last_pid` to `pid_max` and then
from 1 (`reserve_eq`). In a list without `NULL` values these are the numbers that are not keys
(`cyclic_scan_exact`).
-/

namespace KernelPid

open Runs PidSkiplist FirstIn

variable {m : Bindings PidAddr} {lastPid pidMax k : ℤ} {env : ReserveEnv}
  {d : PidNamespace (PidSkiplist PidAddr)}

/-- The number that the scan tries first: the one behind `last_pid`, or 1 if that is not below
`pid_max`. -/
def scanStart (lastPid pidMax : ℤ) : ℤ := if lastPid + 1 < pidMax then lastPid + 1 else 1

/-- The first number with the property `p`, counting up from the start of the scan to `pid_max - 1`
and then from 1 to the start. -/
def scanFirst (p : ℤ → Bool) (lastPid pidMax : ℤ) : Option ℤ :=
  cyclicFirst p (scanStart lastPid pidMax) 1 pidMax

/-- `pid_skiplist_lookup_rcu` finds no pid for `k`. -/
def unseen (m : Bindings PidAddr) (k : ℤ) : Bool := (m k).join.isNone

/-- `k` is not a key. -/
def unbound (m : Bindings PidAddr) (k : ℤ) : Bool := (m k).isNone

theorem wrapInt_of_lt {x : ℤ} (h₁ : 0 ≤ x) (h₂ : x < 2 ^ 31) : wrapInt x = x :=
  Int.bmod_eq_of_le (by omega) (by omega)

/-- `last_pid + 1` wraps around at most where it is not below `pid_max` anyway. -/
theorem startPid_eq (h : 0 ≤ lastPid)
    (hlast : lastPid + 1 < 2 ^ 31 ∨ (lastPid + 1 = 2 ^ 31 ∧ pidMax ≤ 2 ^ 31)) :
    startPid lastPid pidMax = scanStart lastPid pidMax := by
  unfold startPid scanStart
  rcases hlast with hlast | ⟨hlast, hmax⟩
  · rw [wrapInt_of_lt (by omega) hlast]
    split <;> split <;> omega
  · have hwrap : wrapInt (lastPid + 1) < 1 := by
      rw [hlast]
      decide
    rw [if_pos (Or.inl hwrap), if_neg (by omega)]

theorem one_le_scanStart (h : 0 ≤ lastPid) : 1 ≤ scanStart lastPid pidMax := by
  unfold scanStart
  split <;> omega

theorem scanStart_le (hmax : 1 < pidMax) : scanStart lastPid pidMax ≤ pidMax := by
  unfold scanStart
  split <;> omega

/-! ## What the scan takes -/

theorem takes_iff (hnode : ∀ k, (env.node k).ok = true) :
    Takes m env.node k ↔ unseen m k = true := by
  simp [Takes, unseen, hnode]

/-- What the scan picks is what comes first in its order. -/
theorem Picks.scanFirst_eq (h : Picks m lastPid env k) (hnode : ∀ k, (env.node k).ok = true)
    (hstart : startPid lastPid env.pidMax = scanStart lastPid env.pidMax) :
    scanFirst (unseen m) lastPid env.pidMax = some k := by
  have hk : unseen m k = true := (takes_iff hnode).mp h.takes
  have hfirst : ∀ i, 1 ≤ i → i < env.pidMax → Before (scanStart lastPid env.pidMax) i k →
      unseen m i = false := by
    intro i h₁ h₂ hbefore
    rw [← hstart] at hbefore
    exact Bool.eq_false_iff.mpr fun hi => h.first i h₁ h₂ hbefore ((takes_iff hnode).mpr hi)
  have hone : 1 ≤ scanStart lastPid env.pidMax := hstart ▸ one_le_startPid _ _
  apply cyclicFirst_eq_some_iff.mpr
  -- the scan comes to `k` on its way up, or after it started over at 1
  by_cases hs : scanStart lastPid env.pidMax ≤ k
  · left
    apply firstIn_eq_some_iff.mpr
    refine ⟨hs, h.lt_max, hk, fun i h₁ h₂ => ?_⟩
    apply hfirst i (le_trans hone h₁) (lt_trans h₂ h.lt_max)
    rw [Before, if_pos hs]
    exact ⟨h₁, h₂⟩
  · right
    constructor
    · apply firstIn_eq_none_iff.mpr
      intro i h₁ h₂
      apply hfirst i (le_trans hone h₁) h₂
      rw [Before, if_neg hs]
      exact Or.inl h₁
    · apply firstIn_eq_some_iff.mpr
      refine ⟨h.pos, lt_of_not_ge hs, hk, fun i h₁ h₂ => ?_⟩
      apply hfirst i h₁ (lt_trans h₂ h.lt_max)
      rw [Before, if_neg hs]
      exact Or.inr h₂

theorem PicksNone.scanFirst_eq (h : PicksNone m env) (hnode : ∀ k, (env.node k).ok = true)
    (hlast : 0 ≤ lastPid) (hmax : 1 < env.pidMax) :
    scanFirst (unseen m) lastPid env.pidMax = none := by
  apply (cyclicFirst_eq_none_iff (one_le_scanStart hlast) (scanStart_le hmax)).mpr
  intro i h₁ h₂
  exact Bool.eq_false_iff.mpr fun hi => h i h₁ h₂ ((takes_iff hnode).mpr hi)

/-- A loop that finds a pid for every number leaves the list alone. -/
theorem scanLoop_seen {sl : PidSkiplist PidAddr} (hm : Represents sl m) (node : ℤ → NodeEnv) (n : ℕ)
    (scan retval : ℤ) (hseen : ∀ k, scan ≤ k → k < scan + n → (m k).join ≠ none) :
    scanLoop plainList node n scan sl retval = .ok (sl, retval, none) := by
  induction n generalizing scan with
  | zero => rfl
  | succ n ih =>
      have hlookup : plainList.lookupRcu sl scan = .ok (m scan).join :=
        plainList_simulates.lookupRcu hm scan
      obtain ⟨p, hp⟩ := Option.ne_none_iff_exists'.mp (hseen scan (le_refl _) (by omega))
      rw [hp] at hlookup
      simp only [scanLoop, hlookup, ok_bind]
      apply ih
      intro k h₁ h₂
      exact hseen k (by omega) (by omega)

/-- A scan that takes no number leaves the namespace alone. -/
theorem reserve_none (hm : Represents d.pidSl m) (hnone : PicksNone m env)
    (hnode : ∀ k, (env.node k).ok = true) (retval : ℤ) :
    reserve plainList env d retval = .ok (d, retval, -1) := by
  have hseen : ∀ k, 1 ≤ k → k < env.pidMax → (m k).join ≠ none := fun k h₁ h₂ hk =>
    hnone k h₁ h₂ ⟨hk, Or.inr (hnode k)⟩
  have hone := one_le_startPid d.lastPid env.pidMax
  have hlt := startPid_lt d.lastPid env.pidMax
  -- both loops find a pid at every number they come to
  have hhigh := scanLoop_seen hm env.node (env.pidMax - startPid d.lastPid env.pidMax).toNat
    (startPid d.lastPid env.pidMax) retval fun k h₁ h₂ => hseen k (by omega) (by omega)
  have hlow := scanLoop_seen hm env.node (startPid d.lastPid env.pidMax - 1).toNat 1 retval
    fun k h₁ h₂ => hseen k h₁ (by omega)
  simp only [reserve, hhigh, hlow, ok_bind]

/-- One level of `alloc_pid`: it takes the first number in the order of the scan that is not found,
and binds it to `NULL`; if it finds all of them, it leaves the namespace alone. -/
theorem reserve_eq (hm : Represents d.pidSl m) (hnode : ∀ k, (env.node k).ok = true)
    (hlast : 0 ≤ d.lastPid) (hmax : 1 < env.pidMax)
    (hstart : startPid d.lastPid env.pidMax = scanStart d.lastPid env.pidMax) (retval : ℤ) :
    (∃ nr sl, Picks m d.lastPid env nr ∧ scanFirst (unseen m) d.lastPid env.pidMax = some nr ∧
      reserve plainList env d retval = .ok ({ d with pidSl := sl, lastPid := nr }, 0, nr) ∧
      Represents sl (Function.update m nr (some none))) ∨
    (PicksNone m env ∧ scanFirst (unseen m) d.lastPid env.pidMax = none ∧
      reserve plainList env d retval = .ok (d, retval, -1)) := by
  have hsim : NsSim Represents d ⟨m, d.lastPid, d.pidAllocated⟩ := ⟨hm, rfl, rfl⟩
  rcases plainList_simulates.reserve hsim env retval fun _ _ _ _ => trivial with
    ⟨nr, d', hpick, hrun, hd'⟩ | ⟨hnone, -⟩
  · left
    refine ⟨nr, d'.pidSl, hpick, hpick.scanFirst_eq hnode hstart, ?_, hd'.pidSl⟩
    have hlastPid : d'.lastPid = nr := hd'.lastPid
    have hallocated : d'.pidAllocated = d.pidAllocated := hd'.pidAllocated
    rw [hrun, ← hlastPid, ← hallocated]
  · right
    exact ⟨hnone, hnone.scanFirst_eq hnode hlast hmax, reserve_none hm hnone hnode retval⟩

/-! ## Lists without `NULL` values -/

theorem unseen_eq_unbound (hnull : ∀ k, m k ≠ some none) : unseen m = unbound m := by
  funext k
  unfold unseen unbound
  cases hk : m k with
  | none => rfl
  | some v =>
      cases v with
      | none => exact absurd hk (hnull k)
      | some p => rfl

theorem scanFirst_isSome_iff (hlast : 0 ≤ lastPid) (hmax : 1 < pidMax) {p : ℤ → Bool} :
    (∃ nr, scanFirst p lastPid pidMax = some nr) ↔ ∃ k, 1 ≤ k ∧ k < pidMax ∧ p k = true := by
  have hle : scanStart lastPid pidMax ≤ pidMax := scanStart_le hmax
  have hnone := cyclicFirst_eq_none_iff (p := p) (one_le_scanStart hlast) hle
  constructor
  · rintro ⟨nr, hnr⟩
    by_contra hall
    have hno : scanFirst p lastPid pidMax = none := by
      apply hnone.mpr
      intro i h₁ h₂
      exact Bool.eq_false_iff.mpr fun hi => hall ⟨i, h₁, h₂, hi⟩
    simp [hno] at hnr
  · rintro ⟨k, h₁, h₂, hk⟩
    apply Option.ne_none_iff_exists'.mp
    intro hno
    rw [hnone.mp hno k h₁ h₂] at hk
    exact Bool.noConfusion hk

/-- One level of the scan assigns a number if and only if some number below `pid_max` is not a key.
It is the first such number in the order of the scan; the scan binds it to `NULL`, changes no other
binding and sets `last_pid` to it. A scan that assigns none changes nothing. -/
theorem cyclic_scan_exact (d : PidNamespace (PidSkiplist PidAddr)) (m : Bindings PidAddr)
    (env : ReserveEnv) (retval : ℤ) (hm : Represents d.pidSl m) (hnull : ∀ k, m k ≠ some none)
    (hmax : 1 < env.pidMax) (hlast : 0 ≤ d.lastPid) (hlast' : d.lastPid < 2 ^ 31 - 1)
    (hnode : ∀ k, (env.node k).ok = true) :
    ∃ d' r nr, reserve plainList env d retval = .ok (d', r, nr) ∧
      (0 ≤ nr ↔ ∃ k, 1 ≤ k ∧ k < env.pidMax ∧ m k = none) ∧
      (0 ≤ nr → scanFirst (unbound m) d.lastPid env.pidMax = some nr ∧
        Represents d'.pidSl (Function.update m nr (some none)) ∧ d'.lastPid = nr) ∧
      (nr < 0 → d' = d) := by
  have hstart : startPid d.lastPid env.pidMax = scanStart d.lastPid env.pidMax :=
    startPid_eq hlast (Or.inl (by omega))
  have hfree : (∃ nr, scanFirst (unbound m) d.lastPid env.pidMax = some nr) ↔
      ∃ k, 1 ≤ k ∧ k < env.pidMax ∧ m k = none := by
    rw [scanFirst_isSome_iff hlast hmax]
    simp only [unbound, Option.isNone_iff_eq_none]
  have hreserve := reserve_eq hm hnode hlast hmax hstart retval
  rw [unseen_eq_unbound hnull] at hreserve
  rcases hreserve with ⟨nr, sl, hpick, hfirst, hrun, hsl⟩ | ⟨-, hfirst, hrun⟩
  · have hpos := hpick.pos
    refine ⟨_, _, nr, hrun, ?_, fun _ => ⟨hfirst, hsl, rfl⟩, fun hneg => ?_⟩
    · exact iff_of_true (by omega) (hfree.mp ⟨nr, hfirst⟩)
    · omega
  · refine ⟨_, _, -1, hrun, ?_, fun hpos => ?_, fun _ => rfl⟩
    · refine iff_of_false (by decide) fun hk => ?_
      obtain ⟨nr, hnr⟩ := hfree.mpr hk
      simp [hfirst] at hnr
    · exact absurd hpos (by decide)

/-- A list with three pids. -/
def threePids : PidSkiplist PidAddr :=
  listAfter [.insert 1 (some 0) ⟨pidSlRandomLevel 1, true, true⟩,
    .insert 300 (some 2) ⟨pidSlRandomLevel 256, true, true⟩,
    .insert 2 (some 1) ⟨pidSlRandomLevel 16, true, true⟩]

/-- `pid_max` is lowered to 301 below a `last_pid` of 400: the scan begins at 1 again, and passes
over the two pids there. -/
theorem cyclic_scan_exact_lowered :
    ∃ d' r nr, reserve plainList ⟨301, fun _ => ⟨pidSlRandomLevel 16, true, true⟩⟩
        ⟨threePids, 400, pidnsAdding + 3⟩ 0 = .ok (d', r, nr) ∧
      (0 ≤ nr ↔ ∃ k, 1 ≤ k ∧ k < 301 ∧ threePids.bindings k = none) ∧
      (0 ≤ nr → scanFirst (unbound threePids.bindings) 400 301 = some nr ∧
        Represents d'.pidSl (Function.update threePids.bindings nr (some none)) ∧ d'.lastPid = nr) ∧
      (nr < 0 → d' = ⟨threePids, 400, pidnsAdding + 3⟩) := by
  have hm : Represents threePids threePids.bindings := represents_listAfter _
  have hnull : ∀ k, threePids.bindings k ≠ some none := fun k hk => bindings_ne (by decide) hk rfl
  exact cyclic_scan_exact ⟨threePids, 400, pidnsAdding + 3⟩ threePids.bindings
    ⟨301, fun _ => ⟨pidSlRandomLevel 16, true, true⟩⟩ 0 hm hnull (by decide) (by decide) (by decide)
    fun _ => rfl

end KernelPid
