import KernelPid.Pid.Abstract

/-!
# Reserving a number

The scan tries the numbers from `start_pid` up to `pid_max` and then those below `start_pid`, and
takes the first one that looks free and can be inserted: `Picks`. A number looks free when it is not
bound, or bound to `NULL`; it can be inserted when it is bound, or when there is memory for a node.
-/

namespace KernelPid

open Runs PidSkiplist

variable {σ ι : Type} {m : Bindings PidAddr} {node : ℤ → NodeEnv} {c : ℤ}

/-- The scan takes the number `c` when it comes to it. -/
def Takes (m : Bindings PidAddr) (node : ℤ → NodeEnv) (c : ℤ) : Prop :=
  (m c).join = none ∧ (m c ≠ none ∨ (node c).ok = true)

/-- Counting up from `s` and then starting over, `a` comes before `b`. -/
def Before (s a b : ℤ) : Prop :=
  if s ≤ b then s ≤ a ∧ a < b else s ≤ a ∨ a < b

instance (s a b : ℤ) : Decidable (Before s a b) :=
  inferInstanceAs (Decidable (if s ≤ b then s ≤ a ∧ a < b else s ≤ a ∨ a < b))

/-- The scan of a namespace with the bindings `m` and the cursor `lastPid` takes the number `c`. -/
structure Picks (m : Bindings PidAddr) (lastPid : ℤ) (env : ReserveEnv) (c : ℤ) : Prop where
  pos : 1 ≤ c
  lt_max : c < env.pidMax
  takes : Takes m env.node c
  first : ∀ c', 1 ≤ c' → c' < env.pidMax → Before (startPid lastPid env.pidMax) c' c →
    ¬ Takes m env.node c'

/-- The scan takes no number. -/
def PicksNone (m : Bindings PidAddr) (env : ReserveEnv) : Prop :=
  ∀ c, 1 ≤ c → c < env.pidMax → ¬ Takes m env.node c

theorem one_le_startPid (lastPid pidMax : ℤ) : 1 ≤ startPid lastPid pidMax := by
  unfold startPid
  split
  · exact le_refl _
  · omega

theorem startPid_lt (lastPid pidMax : ℤ) :
    startPid lastPid pidMax < pidMax ∨ startPid lastPid pidMax = 1 := by
  unfold startPid
  split
  · exact Or.inr rfl
  · exact Or.inl (by omega)

/-- There is only one number that the scan takes. -/
theorem Picks.unique {lastPid : ℤ} {env : ReserveEnv} {c c' : ℤ} (h : Picks m lastPid env c)
    (h' : Picks m lastPid env c') : c = c' := by
  by_contra hne
  rcases lt_or_gt_of_ne hne with hlt | hlt
  · by_cases hb : Before (startPid lastPid env.pidMax) c c'
    · exact h'.first c h.pos h.lt_max hb h.takes
    · refine h.first c' h'.pos h'.lt_max ?_ h'.takes
      unfold Before at hb ⊢
      split at hb <;> split <;> omega
  · by_cases hb : Before (startPid lastPid env.pidMax) c' c
    · exact h.first c' h'.pos h'.lt_max hb h'.takes
    · refine h'.first c h.pos h.lt_max ?_ h.takes
      unfold Before at hb ⊢
      split at hb <;> split <;> omega

/-! ## The scan -/

variable {B : PidList σ} {Rep : σ → Bindings PidAddr → Prop} {adm : NodeEnv → Prop}

/-- A candidate that the scan does not take is passed over, and the map stays as it is. -/
theorem Simulates.scanLoop_skip (hB : Simulates B Rep adm) {s : σ} (hs : Rep s m) (n : ℕ) {scan : ℤ}
    (retval : ℤ) (htake : ¬ Takes m node scan) :
    ∃ s₁ r, Rep s₁ m ∧ KernelPid.scanLoop B node (n + 1) scan s retval =
      KernelPid.scanLoop B node n (scan + 1) s₁ r := by
  have hlookup := hB.lookupRcu hs scan
  cases hj : (m scan).join with
  | some p => exact ⟨s, retval, hs, by simp only [KernelPid.scanLoop, hlookup, ok_bind, hj]⟩
  | none =>
      have hk : m scan = none := by
        by_contra hk
        exact htake ⟨hj, Or.inl hk⟩
      have henv : (node scan).ok = false := by
        by_contra henv
        exact htake ⟨hj, Or.inr (by simpa using henv)⟩
      have hne : ¬ (-ENOMEM = (0 : ℤ)) := by decide
      obtain ⟨s₁, hs₁, hm₁⟩ := hB.insert hs scan none (node scan) fun _ hok => by simp [henv] at hok
      rw [insertMap_refused hk henv] at hs₁ hm₁
      refine ⟨s₁, -ENOMEM, hm₁, ?_⟩
      simp only [KernelPid.scanLoop, hlookup, ok_bind, hj, hs₁, if_neg hne]

/-- One loop of the scan: it takes the first number that it can, or leaves the map as it was. -/
theorem Simulates.scanLoop (hB : Simulates B Rep adm) {s : σ} (hs : Rep s m) (n : ℕ)
    (scan retval : ℤ) (hadm : ∀ c, scan ≤ c → c < scan + n → Takes m node c →
      (∀ c', scan ≤ c' → c' < c → ¬ Takes m node c') → Admits adm m c (node c)) :
    (∃ c s', scan ≤ c ∧ c < scan + n ∧ Takes m node c ∧
      (∀ c', scan ≤ c' → c' < c → ¬ Takes m node c') ∧
      KernelPid.scanLoop B node n scan s retval = .ok (s', 0, some c) ∧
      Rep s' (Function.update m c (some none))) ∨
    (∀ c, scan ≤ c → c < scan + n → ¬ Takes m node c) ∧
      ∃ s' retval', KernelPid.scanLoop B node n scan s retval = .ok (s', retval', none) ∧
        Rep s' m := by
  induction n generalizing s scan retval with
  | zero => exact Or.inr ⟨fun c h₁ h₂ => by omega, s, retval, rfl, hs⟩
  | succ n ih =>
      have hlookup := hB.lookupRcu hs scan
      by_cases htake : Takes m node scan
      · obtain ⟨s', hs', hm'⟩ := hB.insert hs scan none (node scan)
          (hadm scan (le_refl _) (by omega) htake fun c' h₁ h₂ => by omega)
        rw [insertMap_taken htake.2] at hs' hm'
        refine Or.inl ⟨scan, s', le_refl _, by omega, htake, fun c' h₁ h₂ => by omega, ?_, hm'⟩
        simp only [KernelPid.scanLoop, hlookup, ok_bind, htake.1, hs', if_true]
      · obtain ⟨s₁, r, hm₁, hr⟩ := hB.scanLoop_skip hs n retval htake
        have hfirst : ∀ c', scan ≤ c' → c' < scan + 1 → ¬ Takes m node c' := fun c' h₁ h₂ => by
          rw [show c' = scan by omega]
          exact htake
        have hjoin : ∀ c, (∀ c', scan + 1 ≤ c' → c' < c → ¬ Takes m node c') →
            ∀ c', scan ≤ c' → c' < c → ¬ Takes m node c' := fun c hbefore c' h₁ h₂ => by
          by_cases hc' : c' < scan + 1
          · exact hfirst c' h₁ hc'
          · exact hbefore c' (by omega) h₂
        rw [hr]
        rcases ih hm₁ (scan + 1) r fun c h₁ h₂ hc hbefore =>
            hadm c (by omega) (by omega) hc (hjoin c hbefore) with
          ⟨c, s', h₁, h₂, hc, hbefore, heq, hm'⟩ | ⟨hnone, s', r', heq, hm'⟩
        · exact Or.inl ⟨c, s', by omega, by omega, hc, hjoin c hbefore, heq, hm'⟩
        · refine Or.inr ⟨hjoin _ fun c' h₁ h₂ => hnone c' h₁ (by omega), s', r', heq, hm'⟩

/-- One level of `alloc_pid`: it takes the number that the scan picks, or leaves the namespace as it
was. -/
theorem Simulates.reserve (hB : Simulates B Rep adm) {d : PidNamespace σ}
    {a : PidNamespace (Bindings PidAddr)} (hd : NsSim Rep d a) (env : ReserveEnv) (retval : ℤ)
    (hadm : ∀ c, Picks a.pidSl a.lastPid env c → Admits adm a.pidSl c (env.node c)) :
    (∃ nr d', Picks a.pidSl a.lastPid env nr ∧ KernelPid.reserve B env d retval = .ok (d', 0, nr) ∧
      NsSim Rep d' { a with pidSl := Function.update a.pidSl nr (some none), lastPid := nr }) ∨
    PicksNone a.pidSl env ∧ ∃ d' retval', KernelPid.reserve B env d retval = .ok (d', retval', -1) ∧
      NsSim Rep d' a := by
  have hone := one_le_startPid a.lastPid env.pidMax
  have hlt := startPid_lt a.lastPid env.pidMax
  simp only [KernelPid.reserve, hd.lastPid]
  set s := startPid a.lastPid env.pidMax with hs
  -- what the two loops find, put in the words of `Picks`
  have hpicks₁ : ∀ c, s ≤ c → c < s + (env.pidMax - s).toNat → Takes a.pidSl env.node c →
      (∀ c', s ≤ c' → c' < c → ¬ Takes a.pidSl env.node c') → Picks a.pidSl a.lastPid env c := by
    intro c h₁ h₂ hc hbefore
    refine ⟨by omega, by omega, hc, fun c' h₁' h₂' hb => ?_⟩
    rw [← hs, Before, if_pos h₁] at hb
    exact hbefore c' hb.1 hb.2
  rcases hB.scanLoop hd.pidSl (env.pidMax - s).toNat s retval
      fun c h₁ h₂ hc hbefore => hadm c (hpicks₁ c h₁ h₂ hc hbefore) with
    ⟨c, sl, h₁, h₂, hc, hbefore, heq, hm⟩ | ⟨hnone, sl, r, heq, hm⟩
  · refine Or.inl ⟨c, ⟨sl, c, d.pidAllocated⟩, hpicks₁ c h₁ h₂ hc hbefore, ?_, hm, rfl,
      hd.pidAllocated⟩
    simp only [heq, ok_bind]
  · have hpicks₂ : ∀ c : ℤ, 1 ≤ c → c < 1 + (s - 1).toNat → Takes a.pidSl env.node c →
        (∀ c', 1 ≤ c' → c' < c → ¬ Takes a.pidSl env.node c') →
        Picks a.pidSl a.lastPid env c := by
      intro c h₁ h₂ hc hbefore
      refine ⟨h₁, by omega, hc, fun c' h₁' h₂' hb => ?_⟩
      rw [← hs, Before, if_neg (by omega)] at hb
      by_cases hc' : s ≤ c'
      · exact hnone c' hc' (by omega)
      · exact hbefore c' h₁' (by omega)
    rcases hB.scanLoop hm (s - 1).toNat 1 r
        fun c h₁ h₂ hc hbefore => hadm c (hpicks₂ c h₁ h₂ hc hbefore) with
      ⟨c, sl', h₁, h₂, hc, hbefore, heq', hm'⟩ | ⟨hnone', sl', r', heq', hm'⟩
    · refine Or.inl ⟨c, ⟨sl', c, d.pidAllocated⟩, hpicks₂ c h₁ h₂ hc hbefore, ?_, hm', rfl,
        hd.pidAllocated⟩
      simp only [heq, heq', ok_bind]
    · refine Or.inr ⟨fun c' h₁' h₂' => ?_, ⟨sl', a.lastPid, d.pidAllocated⟩, r', ?_, hm', rfl,
        hd.pidAllocated⟩
      · by_cases hc' : s ≤ c'
        · exact hnone c' hc' (by omega)
        · exact hnone' c' h₁' (by omega)
      · simp only [heq, heq', ok_bind, ← hd.lastPid]

end KernelPid
