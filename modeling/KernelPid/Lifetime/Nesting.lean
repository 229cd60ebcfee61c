import KernelPid.Lifetime.Nsproxy

/-!
# Walks up the used namespaces

Every walk up from a used namespace stays among used ones, with one namespace on each level, so the
loops of `pidns_install` and `pidns_get_parent` end, and find the active namespace if and only if it
is above. What was above a namespace stays above it as long as it is used (`Later.isAncestor`).
-/

namespace KernelPid.Lifetime

open Runs Ancestors

variable {K K' : Objects} {n m active : NsAddr} {p : PidAddr} {maxPidNsLevel : ℕ} {w w' : World}

/-! ## Ancestors -/

theorem parent_eq {d : NsObject} (hd : K.ns n = some d) : K.parent n = d.parent := by
  rw [Objects.parent, hd, Option.bind_some]

theorem level_eq {d : NsObject} (hd : K.ns n = some d) : K.level n = d.level := by
  rw [Objects.level, hd, Option.elim_some]

theorem World.Grown.used_of_isAncestor (h : w.Grown maxPidNsLevel) (hn : w.K.IsUsed n)
    (hanc : IsAncestor w.K.parent n m) : w.K.IsUsed m := by
  induction hanc with
  | refl => exact hn
  | tail _ hparent ih => exact h.counted.used_parent ih hparent

/-- The walks up from a used namespace are those in the tree. -/
theorem World.Grown.isAncestor_usedTree (h : w.Grown maxPidNsLevel) (hn : w.K.IsUsed n)
    (hanc : IsAncestor w.K.parent n m) :
    h.usedTree.IsAncestor ⟨n, hn⟩ ⟨m, h.used_of_isAncestor hn hanc⟩ := by
  induction hanc with
  | refl => exact .refl _
  | tail hanc hparent ih =>
      refine ih.step ?_
      show w.K.usedParent _ = _
      rw [Objects.usedParent, hparent, Option.bind_some, dif_pos]

/-- Two ancestors on one level are the same. -/
theorem World.Grown.ancestor_unique (h : w.Grown maxPidNsLevel) (hn : w.K.IsUsed n) {a b : NsAddr}
    (ha : IsAncestor w.K.parent n a) (hb : IsAncestor w.K.parent n b)
    (hlevel : w.K.level a = w.K.level b) : a = b :=
  congrArg Subtype.val ((h.isAncestor_usedTree hn ha).eq_of_level_eq h.usedTree.level_parent
    (h.isAncestor_usedTree hn hb) hlevel)

theorem World.Grown.level_le_of_isAncestor (h : w.Grown maxPidNsLevel) (hn : w.K.IsUsed n)
    (hanc : IsAncestor w.K.parent n m) : w.K.level m ≤ w.K.level n :=
  (h.isAncestor_usedTree hn hanc).level_le h.usedTree.level_parent

/-- What is above a namespace stays there as long as the namespace is used. -/
theorem Later.isAncestor (hlater : Later w.K w'.K) (h : w.Grown maxPidNsLevel)
    (h' : w'.Grown maxPidNsLevel) (hn : w.K.IsUsed n) (hn' : w'.K.IsUsed n)
    (hanc : IsAncestor w.K.parent n m) : IsAncestor w'.K.parent n m := by
  induction hanc using Relation.ReflTransGen.head_induction_on with
  | refl => exact .refl m
  | head hparent _ ih =>
      obtain ⟨d, hd, -⟩ := id hn
      obtain ⟨d', hd', -⟩ := id hn'
      obtain ⟨e, he, heq⟩ := hlater.ns (h.counted.ns_lt hd) hd'
      have hparent' := hparent
      rw [parent_eq he, ← show d'.parent = e.parent from congrArg Prod.snd heq,
        ← parent_eq hd'] at hparent'
      exact Relation.ReflTransGen.head hparent'
        (ih (h.counted.used_parent hn hparent) (h'.counted.used_parent hn' hparent'))

/-! ## The loops -/

/-- A used namespace above level 0 has a used parent, one level below it. -/
theorem World.Grown.exists_used_parent (h : w.Grown maxPidNsLevel) {d : NsObject}
    (hd : w.K.ns n = some d) (hused : 0 < d.kref) (hlevel : 0 < d.level) :
    ∃ q, d.parent = some q ∧ q < n ∧ w.K.IsUsed q ∧ d.level = w.K.level q + 1 := by
  have hn : n ≠ initPidNs := by
    rintro rfl
    rw [show d.level = 0 from congrArg Prod.fst (h.rooted.root hd)] at hlevel
    exact absurd hlevel (Nat.lt_irrefl 0)
  obtain ⟨q, hq, hlt⟩ := h.counted.parent hd hn
  have hqused : w.K.IsUsed q := h.counted.used_parent ⟨d, hd, hused⟩ ((parent_eq hd).trans hq)
  obtain ⟨e, he, -⟩ := id hqused
  refine ⟨q, hq, hlt, hqused, ?_⟩
  rw [level_eq he]
  exact h.rooted.level hd hq he

/-- The loop of `pidns_install` ends at the ancestor on the level of the active namespace. -/
theorem World.Grown.installLoop (h : w.Grown maxPidNsLevel) {level fuel : ℕ} (hn : w.K.IsUsed n)
    (hlevel : level ≤ w.K.level n) (hfuel : n < fuel) :
    ∃ a, w.K.installLoop level fuel (some n) = .ok a ∧ IsAncestor w.K.parent n a ∧
      w.K.level a = level := by
  induction fuel generalizing n with
  | zero => exact absurd hfuel (Nat.not_lt_zero n)
  | succ fuel ih =>
      obtain ⟨d, hd, hpos⟩ := id hn
      have hderef := derefNs_eq hd
      rw [level_eq hd] at hlevel
      by_cases hlt : level < d.level
      · obtain ⟨q, hq, hqn, hqused, hqlevel⟩ := h.exists_used_parent hd hpos (by omega)
        obtain ⟨a, hrun, hanc, ha⟩ :=
          ih hqused (by omega) (lt_of_lt_of_le hqn (Nat.le_of_lt_succ hfuel))
        refine ⟨a, ?_, Relation.ReflTransGen.head ((parent_eq hd).trans hq) hanc, ha⟩
        simp only [Objects.installLoop, hderef, ok_bind, if_pos hlt, hq, hrun]
      · refine ⟨n, ?_, .refl n, ?_⟩
        · simp only [Objects.installLoop, hderef, ok_bind, if_neg hlt]
        · rw [level_eq hd]
          omega

/-- The loop of `pidns_get_parent` finds the active namespace if and only if it is above. -/
theorem World.Grown.getParentLoop (h : w.Grown maxPidNsLevel) (active : NsAddr) {fuel : ℕ}
    {o : Option NsAddr} (ho : ∀ q, o = some q → w.K.IsUsed q ∧ q < fuel) :
    ∃ b, w.K.getParentLoop active (fuel + 1) o = .ok b ∧
      (b = true ↔ ∃ q, o = some q ∧ IsAncestor w.K.parent q active) := by
  induction fuel generalizing o with
  | zero =>
      cases o with
      | none => exact ⟨false, rfl, by simp⟩
      | some q => exact absurd (ho q rfl).2 (Nat.not_lt_zero q)
  | succ fuel ih =>
      cases o with
      | none => exact ⟨false, rfl, by simp⟩
      | some q =>
          by_cases hq : q = active
          · refine ⟨true, ?_, ?_⟩
            · simp only [Objects.getParentLoop, if_pos hq]
            · exact iff_of_true rfl ⟨q, rfl, hq ▸ .refl q⟩
          · obtain ⟨⟨d, hd, hpos⟩, hlt⟩ := ho q rfl
            have hderef := derefNs_eq hd
            have hup : ∀ r, d.parent = some r → w.K.IsUsed r ∧ r < fuel := by
              intro r hr
              refine ⟨h.counted.used_parent ⟨d, hd, hpos⟩ ((parent_eq hd).trans hr), ?_⟩
              exact lt_of_lt_of_le (h.rooted.parent_lt h.counted.toShape hd hr)
                (Nat.le_of_lt_succ hlt)
            obtain ⟨b, hrun, hb⟩ := ih hup
            refine ⟨b, ?_, hb.trans ?_⟩
            · rw [Objects.getParentLoop, if_neg hq, hderef, ok_bind]
              exact hrun
            · constructor
              · rintro ⟨r, hr, hanc⟩
                exact ⟨q, rfl, Relation.ReflTransGen.head ((parent_eq hd).trans hr) hanc⟩
              · rintro ⟨q', hq', hanc⟩
                obtain rfl := Option.some.inj hq'
                rcases hanc.eq_or with rfl | ⟨r, hr, hanc⟩
                · exact absurd rfl hq
                · exact ⟨r, (parent_eq hd).symm.trans hr, hanc⟩

/-! ## `pidns_install` and `pidns_get_parent` -/

variable {pidNsForChildren : NsAddr}

/-- Without the capability nothing is installed. -/
theorem pidnsInstall_of_not_capable (hn : K.IsUsed n) :
    K.pidnsInstall active pidNsForChildren n false = .ok (K, pidNsForChildren, -EPERM) := by
  obtain ⟨d, hd, -⟩ := hn
  simp only [Objects.pidnsInstall, derefNs_eq hd, ok_bind, if_true]

/-- A namespace that is not below the active one is not installed. -/
theorem World.Grown.pidnsInstall_of_not_ancestor (h : w.Grown maxPidNsLevel) (hn : w.K.IsUsed n)
    (hactive : w.K.IsUsed active) (hanc : ¬ IsAncestor w.K.parent n active) :
    w.K.pidnsInstall active pidNsForChildren n true = .ok (w.K, pidNsForChildren, -EINVAL) := by
  obtain ⟨d, hd, -⟩ := id hn
  obtain ⟨a, ha, -⟩ := hactive
  simp only [Objects.pidnsInstall, derefNs_eq hd, derefNs_eq ha, ok_bind,
    Bool.true_eq_false, if_false]
  split
  · rfl
  · next hle =>
    have hlevel : a.level ≤ w.K.level n := by
      rw [level_eq hd]
      exact Nat.not_lt.mp hle
    obtain ⟨b, hrun, hb, -⟩ := h.installLoop hn hlevel (Nat.lt_succ_of_lt (h.counted.ns_lt hd))
    have hne : b ≠ active := by
      rintro rfl
      exact hanc hb
    simp only [hrun, ok_bind, if_pos hne]

/-- A namespace below the active one is installed. -/
theorem World.Grown.pidnsInstall_of_ancestor (h : w.Grown maxPidNsLevel) (hn : w.K.IsUsed n)
    (hactive : w.K.IsUsed active) (hanc : IsAncestor w.K.parent n active) :
    w.K.pidnsInstall active pidNsForChildren n true = (do
      let K ← w.K.putPidNs pidNsForChildren
      let K ← K.getPidNs n
      .ok (K, n, 0)) := by
  obtain ⟨d, hd, -⟩ := id hn
  obtain ⟨a, ha, -⟩ := hactive
  have hlevel := h.level_le_of_isAncestor hn hanc
  have hactiveLevel := level_eq ha
  obtain ⟨b, hrun, hb, hblevel⟩ := h.installLoop hn hlevel (Nat.lt_succ_of_lt (h.counted.ns_lt hd))
  have hb : b = active := h.ancestor_unique hn hb hanc hblevel
  rw [level_eq hd, hactiveLevel] at hlevel
  rw [hactiveLevel] at hrun
  simp only [Objects.pidnsInstall, derefNs_eq hd, derefNs_eq ha, ok_bind,
    Bool.true_eq_false, if_false, if_neg (Nat.not_lt.mpr hlevel), hrun, hb, ne_eq,
    not_true_eq_false]

/-- `pidns_get_parent` returns the parent if and only if that is the active namespace
or below it. -/
theorem World.Grown.pidnsGetParent (h : w.Grown maxPidNsLevel) (hn : w.K.IsUsed n)
    (active : NsAddr) :
    (∃ q, w.K.parent n = some q ∧ IsAncestor w.K.parent q active ∧ w.K.IsUsed q ∧
        w.K.pidnsGetParent active n = (do
          let K ← w.K.getPidNs q
          .ok (K, some q))) ∨
      ((∀ q, w.K.parent n = some q → ¬ IsAncestor w.K.parent q active) ∧
        w.K.pidnsGetParent active n = .ok (w.K, none)) := by
  obtain ⟨d, hd, hpos⟩ := id hn
  have hparent := parent_eq hd
  have hup : ∀ q, d.parent = some q → w.K.IsUsed q ∧ q < w.K.nsBrk := by
    intro q hq
    have hused := h.counted.used_parent hn (hparent.trans hq)
    obtain ⟨e, he, -⟩ := id hused
    exact ⟨hused, h.counted.ns_lt he⟩
  obtain ⟨b, hrun, hb⟩ := h.getParentLoop active hup
  rw [hparent]
  cases b with
  | true =>
      obtain ⟨q, hq, hanc⟩ := hb.mp rfl
      refine Or.inl ⟨q, hq, hanc, (hup q hq).1, ?_⟩
      rw [hq] at hrun
      simp only [Objects.pidnsGetParent, derefNs_eq hd, ok_bind, hq, hrun]
  | false =>
      refine Or.inr ⟨fun q hq hanc => ?_, ?_⟩
      · exact absurd (hb.mpr ⟨q, hq, hanc⟩) (by simp)
      · simp only [Objects.pidnsGetParent, derefNs_eq hd, ok_bind, hrun]

end KernelPid.Lifetime
