import KernelPid.Lifetime.Teardown

/-!
# What a step does to the namespaces and the pids in memory

A namespace keeps the level and the parent that `create_pid_namespace` gave it, and a pid
its namespace: counts change (`SameNs`), objects go, and each new namespace lies one level
below one that was there (`Grows`). Memory is not handed out twice, so what is still in
memory after many steps is what it was before them (`Later`).
-/

namespace KernelPid.Lifetime

open Runs Tally

variable {K K' : Objects} {nsRefs pidRefs : ℕ → ℕ} {live : List PidAddr} {n : NsAddr}
  {maxPidNsLevel : ℕ}

/-! ## Counts -/

/-- Where a namespace is in the tree. -/
def NsObject.place (d : NsObject) : ℕ × Option NsAddr := (d.level, d.parent)

/-- `K'` has the pids of `K`, and its namespaces in their places: only their counts may differ. -/
structure SameNs (K K' : Objects) : Prop where
  pid : K'.pid = K.pid
  pidBrk : K'.pidBrk = K.pidBrk
  nsBrk : K'.nsBrk = K.nsBrk
  place : ∀ n, (K'.ns n).map NsObject.place = (K.ns n).map NsObject.place

theorem SameNs.refl (K : Objects) : SameNs K K := ⟨rfl, rfl, rfl, fun _ => rfl⟩

theorem SameNs.trans {K'' : Objects} (h : SameNs K K') (h' : SameNs K' K'') : SameNs K K'' :=
  ⟨h'.pid.trans h.pid, h'.pidBrk.trans h.pidBrk, h'.nsBrk.trans h.nsBrk,
    fun n => (h'.place n).trans (h.place n)⟩

/-- A count is written. -/
theorem sameNs_setNs {d e : NsObject} (hd : K.ns n = some d) (he : e.place = d.place) :
    SameNs K (K.setNs n (some e)) := by
  refine ⟨rfl, rfl, rfl, fun m => ?_⟩
  show (Function.update K.ns n (some e) m).map NsObject.place = _
  by_cases hm : m = n
  · subst hm
    rw [Function.update_self, hd, Option.map_some, Option.map_some, he]
  · rw [Function.update_of_ne hm]

theorem derefNs_eq_ok {d : NsObject} : K.derefNs n = .ok d ↔ K.ns n = some d := by
  unfold Objects.derefNs
  cases K.ns n <;> simp

theorem derefPid_eq_ok {p : PidAddr} {d : PidObject} : K.derefPid p = .ok d ↔ K.pid p = some d := by
  unfold Objects.derefPid
  cases K.pid p <;> simp

theorem getPidNs_same (h : K.getPidNs n = .ok K') : SameNs K K' := by
  unfold Objects.getPidNs at h
  split at h
  · obtain rfl := Except.ok.inj h
    exact .refl K
  · obtain ⟨d, hd, h⟩ := bind_eq_ok.mp h
    obtain rfl := Except.ok.inj h
    exact sameNs_setNs (derefNs_eq_ok.mp hd) rfl

theorem krefPut_same {last : Bool} (h : K.krefPut n = .ok (K', last)) : SameNs K K' := by
  obtain ⟨d, hd, h⟩ := bind_eq_ok.mp h
  have hput : ∀ k, SameNs K (K.setNs n (some { d with kref := k })) :=
    fun k => sameNs_setNs (derefNs_eq_ok.mp hd) rfl
  split at h
  · exact absurd h (by simp)
  · obtain ⟨rfl, -⟩ := Prod.mk.inj (Except.ok.inj h)
    exact (hput 0).trans ⟨rfl, rfl, rfl, fun _ => rfl⟩
  · obtain ⟨rfl, -⟩ := Prod.mk.inj (Except.ok.inj h)
    exact hput _

theorem putPidNsLoop_same {fuel : ℕ} {o : Option NsAddr}
    (h : Objects.putPidNsLoop fuel o K = .ok K') : SameNs K K' := by
  induction fuel generalizing o K with
  | zero => simp [Objects.putPidNsLoop] at h
  | succ fuel ih =>
      cases o with
      | none => simp [Objects.putPidNsLoop] at h
      | some n =>
          unfold Objects.putPidNsLoop at h
          split at h
          · obtain rfl := Except.ok.inj h
            exact .refl K
          · obtain ⟨d, -, h⟩ := bind_eq_ok.mp h
            obtain ⟨⟨K₁, last⟩, hput, h⟩ := bind_eq_ok.mp h
            have h₁ := krefPut_same hput
            cases last with
            | true => exact h₁.trans (ih h)
            | false =>
                obtain rfl := Except.ok.inj h
                exact h₁

/-- `put_pid_ns` frees no memory. -/
theorem putPidNs_same (h : K.putPidNs n = .ok K') : SameNs K K' := putPidNsLoop_same h

/-! ## What a step does to the tree -/

/-- What is in memory in `K'` and was made by the time of `K` was in memory then, in the
same place. -/
structure Later (K K' : Objects) : Prop where
  nsBrk : K.nsBrk ≤ K'.nsBrk
  pidBrk : K.pidBrk ≤ K'.pidBrk
  ns : ∀ {n d'}, n < K.nsBrk → K'.ns n = some d' → ∃ d, K.ns n = some d ∧ d'.place = d.place
  pid : ∀ {p d'}, p < K.pidBrk → K'.pid p = some d' → ∃ d, K.pid p = some d ∧ d'.ns = d.ns

/-- From `K` to `K'`, each new namespace is put one level below one that was there. -/
structure Grows (maxPidNsLevel : ℕ) (K K' : Objects) : Prop extends Later K K' where
  new : ∀ {n d'}, K.nsBrk ≤ n → K'.ns n = some d' → ∃ q e, q < K.nsBrk ∧ K.ns q = some e ∧
    d'.place = (e.level + 1, some q) ∧ e.level + 1 ≤ maxPidNsLevel

theorem Later.refl (K : Objects) : Later K K :=
  ⟨le_refl _, le_refl _, fun _ hd => ⟨_, hd, rfl⟩, fun _ hd => ⟨_, hd, rfl⟩⟩

theorem Later.trans {K'' : Objects} (h : Later K K') (h' : Later K' K'') : Later K K'' := by
  refine ⟨h.nsBrk.trans h'.nsBrk, h.pidBrk.trans h'.pidBrk, fun hn hd => ?_, fun hp hd => ?_⟩
  · obtain ⟨d', hd', heq'⟩ := h'.ns (lt_of_lt_of_le hn h.nsBrk) hd
    obtain ⟨d, hd, heq⟩ := h.ns hn hd'
    exact ⟨d, hd, heq'.trans heq⟩
  · obtain ⟨d', hd', heq'⟩ := h'.pid (lt_of_lt_of_le hp h.pidBrk) hd
    obtain ⟨d, hd, heq⟩ := h.pid hp hd'
    exact ⟨d, hd, heq'.trans heq⟩

theorem SameNs.exists_place (h : SameNs K K') {d' : NsObject} (hd' : K'.ns n = some d') :
    ∃ d, K.ns n = some d ∧ d'.place = d.place := by
  have hplace := h.place n
  rw [hd', Option.map_some] at hplace
  obtain ⟨d, hd, heq⟩ := Option.map_eq_some_iff.mp hplace.symm
  exact ⟨d, hd, heq.symm⟩

theorem SameNs.symm (h : SameNs K K') : SameNs K' K :=
  ⟨h.pid.symm, h.pidBrk.symm, h.nsBrk.symm, fun n => (h.place n).symm⟩

/-- No namespace is new, and the pids that were made before keep their namespace. -/
theorem Grows.of_ns (hshape : Shape K) (hbrk : K'.nsBrk = K.nsBrk) (hpidBrk : K.pidBrk ≤ K'.pidBrk)
    (hns : ∀ {n d'}, K'.ns n = some d' → ∃ d, K.ns n = some d ∧ d'.place = d.place)
    (hpid : ∀ {p d'}, p < K.pidBrk → K'.pid p = some d' → ∃ d, K.pid p = some d ∧ d'.ns = d.ns) :
    Grows maxPidNsLevel K K' := by
  refine ⟨⟨Nat.le_of_eq hbrk.symm, hpidBrk, fun _ => hns, hpid⟩, fun hn hd' => ?_⟩
  obtain ⟨d, hd, -⟩ := hns hd'
  exact absurd (hshape.ns_lt hd) (Nat.not_lt.mpr hn)

theorem SameNs.grows (h : SameNs K K') (hshape : Shape K) : Grows maxPidNsLevel K K' := by
  refine .of_ns hshape h.nsBrk (Nat.le_of_eq h.pidBrk.symm) h.exists_place fun {p d'} _ hd' => ?_
  rw [h.pid] at hd'
  exact ⟨d', hd', rfl⟩

theorem Grows.same {K'' : Objects} (h : Grows maxPidNsLevel K K') (h' : SameNs K' K'') :
    Grows maxPidNsLevel K K'' := by
  refine ⟨⟨h'.nsBrk ▸ h.nsBrk, h'.pidBrk ▸ h.pidBrk, fun hn hd => ?_, fun hp hd => ?_⟩,
    fun hn hd => ?_⟩
  · obtain ⟨d', hd', heq'⟩ := h'.exists_place hd
    obtain ⟨d, hd, heq⟩ := h.ns hn hd'
    exact ⟨d, hd, heq'.trans heq⟩
  · exact h.pid hp (h'.pid ▸ hd)
  · obtain ⟨d', hd', heq'⟩ := h'.exists_place hd
    obtain ⟨q, e, hq, he, hplace, hle⟩ := h.new hn hd'
    exact ⟨q, e, hq, he, heq'.trans hplace, hle⟩

theorem SameNs.then {K'' : Objects} (h : SameNs K K') (h' : Grows maxPidNsLevel K' K'') :
    Grows maxPidNsLevel K K'' := by
  refine ⟨⟨h.nsBrk ▸ h'.nsBrk, h.pidBrk ▸ h'.pidBrk, fun hn hd => ?_, fun hp hd => ?_⟩,
    fun hn hd => ?_⟩
  · obtain ⟨d', hd', heq'⟩ := h'.ns (h.nsBrk ▸ hn) hd
    obtain ⟨d, hd, heq⟩ := h.exists_place hd'
    exact ⟨d, hd, heq'.trans heq⟩
  · exact h.pid ▸ h'.pid (h.pidBrk ▸ hp) hd
  · obtain ⟨q, e', hq, he', hplace, hle⟩ := h'.new (h.nsBrk ▸ hn) hd
    obtain ⟨e, he, heq⟩ := h.exists_place he'
    rw [show e'.level = e.level from congrArg Prod.fst heq] at hplace hle
    exact ⟨q, e, h.nsBrk ▸ hq, he, hplace, hle⟩

/-- The last references to a pid and to its namespace may go. -/
theorem putPid_grows {p : PidAddr} (hshape : Shape K) (h : K.putPid p = .ok K') :
    Grows maxPidNsLevel K K' := by
  have hset : ∀ b, (∀ e, b = some e → ∃ d, K.pid p = some d ∧ e.ns = d.ns) →
      Grows maxPidNsLevel K (K.setPid p b) := by
    refine fun b hb => .of_ns hshape rfl (le_refl _) (fun hd => ⟨_, hd, rfl⟩) fun _ hd => ?_
    rcases update_eq_some hd with ⟨rfl, heq⟩ | ⟨-, hd⟩
    · exact hb _ heq
    · exact ⟨_, hd, rfl⟩
  obtain ⟨d, hd, h⟩ := bind_eq_ok.mp h
  have hd := derefPid_eq_ok.mp hd
  split at h
  · simp at h
  · have hnone : Grows maxPidNsLevel K (K.setPid p none) := hset none fun e he => by simp at he
    exact hnone.same (putPidNs_same h)
  · obtain rfl := Except.ok.inj h
    refine hset _ fun e he => ⟨d, hd, ?_⟩
    rw [← Option.some.inj he]

theorem newNs_grows (hshape : Shape K) {d : NsObject} (hd : K.ns n = some d)
    (hlevel : d.level + 1 ≤ maxPidNsLevel) :
    Grows maxPidNsLevel K (K.newNs { kref := 1, level := d.level + 1, parent := some n }) := by
  refine ⟨⟨Nat.le_succ _, le_refl _, fun hm he => ?_, fun _ he => ⟨_, he, rfl⟩⟩, fun hm he => ?_⟩
  · rcases update_eq_some he with ⟨rfl, -⟩ | ⟨-, he⟩
    · exact absurd hm (Nat.lt_irrefl _)
    · exact ⟨_, he, rfl⟩
  · rcases update_eq_some he with ⟨-, heq⟩ | ⟨-, he⟩
    · rw [← Option.some.inj heq]
      exact ⟨n, d, hshape.ns_lt hd, hd, rfl, hlevel⟩
    · exact absurd (hshape.ns_lt he) (Nat.not_lt.mpr hm)

theorem Counted.createPidNamespace_grows {made : Bool} {o : Option NsAddr}
    (h : Counted K nsRefs pidRefs live) (hn : K.IsUsed n)
    (hrun : K.createPidNamespace maxPidNsLevel n made = .ok (K', o)) :
    Grows maxPidNsLevel K K' := by
  obtain ⟨K₁, hget, h₁, -⟩ := h.getPidNs hn
  obtain ⟨d, hd, hrun⟩ := bind_eq_ok.mp hrun
  split at hrun
  · obtain ⟨rfl, -⟩ := Prod.mk.inj (Except.ok.inj hrun)
    exact (SameNs.refl _).grows h.toShape
  · next hlevel =>
    split at hrun
    · obtain ⟨rfl, -⟩ := Prod.mk.inj (Except.ok.inj hrun)
      exact SameNs.grows ⟨rfl, rfl, rfl, fun _ => rfl⟩ h.toShape
    · rw [hget] at hrun
      obtain ⟨rfl, -⟩ := Prod.mk.inj (Except.ok.inj hrun)
      have hsame := getPidNs_same hget
      obtain ⟨e, he, heq⟩ := hsame.symm.exists_place (derefNs_eq_ok.mp hd)
      rw [show d.level = e.level from congrArg Prod.fst heq] at hlevel ⊢
      exact hsame.then (newNs_grows h₁.toShape he (Nat.not_lt.mp hlevel))

theorem Counted.allocPid_grows {adding : Bool} {o : Option PidAddr}
    (h : Counted K nsRefs pidRefs live) (hn : K.IsUsed n)
    (hrun : K.allocPid n adding = .ok (K', o)) : Grows maxPidNsLevel K K' := by
  obtain ⟨K₁, hget, h₁, -⟩ := h.getPidNs hn
  rw [Objects.allocPid, hget, ok_bind] at hrun
  cases adding with
  | true =>
      obtain ⟨rfl, -⟩ := Prod.mk.inj (Except.ok.inj hrun)
      refine (getPidNs_same hget).then
        (.of_ns h₁.toShape rfl (Nat.le_succ _) (fun hd => ⟨_, hd, rfl⟩) ?_)
      intro p d' hp hd'
      rcases update_eq_some hd' with ⟨rfl, -⟩ | ⟨-, hd'⟩
      · exact absurd hp (Nat.lt_irrefl _)
      · exact ⟨d', hd', rfl⟩
  | false =>
      obtain ⟨K₂, hput, hdone⟩ := bind_eq_ok.mp hrun
      obtain ⟨rfl, -⟩ := Prod.mk.inj (Except.ok.inj hdone)
      exact ((getPidNs_same hget).trans (putPidNs_same hput)).grows h.toShape

theorem rcuCallback_grows {g : RcuHead} (hshape : Shape K) (hrun : K.rcuCallback g = .ok K') :
    Grows maxPidNsLevel K K' := by
  cases g with
  | delayedPutPid p =>
      obtain ⟨K₁, hput, hdone⟩ := bind_eq_ok.mp hrun
      obtain rfl := Except.ok.inj hdone
      set K₀ : Objects := { K with rcu := K.rcu.erase (.delayedPutPid p), context := .rcuCallback }
      have hshape₀ : Shape K₀ := hshape.of_eq rfl rfl rfl rfl
      have hsame : SameNs K K₀ := ⟨rfl, rfl, rfl, fun _ => rfl⟩
      exact (hsame.then (putPid_grows hshape₀ hput)).same ⟨rfl, rfl, rfl, fun _ => rfl⟩
  | delayedFreePidns n =>
      obtain rfl := Except.ok.inj hrun
      refine .of_ns hshape rfl (le_refl _) (fun hd => ?_) fun _ hd => ⟨_, hd, rfl⟩
      rcases update_eq_some hd with ⟨-, hnone⟩ | ⟨-, hd⟩
      · simp at hnone
      · exact ⟨_, hd, rfl⟩

/-- A step is taken when its caller may take it. -/
theorem step_or_skip {c : Prop} [Decidable c] {s s' : World} {x : Except Fault World}
    (h : (if c then x else .ok s) = .ok s') : (c ∧ x = .ok s') ∨ s = s' := by
  split at h
  · next hc => exact Or.inl ⟨hc, h⟩
  · exact Or.inr (Except.ok.inj h)

theorem step_grows {s s' : World} {a : Act} (hs : s.Sound)
    (hrun : step maxPidNsLevel s a = .ok s') : Grows maxPidNsLevel s.K s'.K := by
  have hshape := hs.counted.toShape
  have hskip : Grows maxPidNsLevel s.K s.K := (SameNs.refl _).grows hshape
  cases a with
  | createPidNamespace n made =>
      rcases step_or_skip hrun with ⟨hn, hrun⟩ | rfl
      · obtain ⟨⟨K', o⟩, hcreate, hdone⟩ := bind_eq_ok.mp hrun
        have hgrows := hs.counted.createPidNamespace_grows hn hcreate
        cases o <;> obtain rfl := Except.ok.inj hdone <;> exact hgrows
      · exact hskip
  | getPidNs n =>
      rcases step_or_skip hrun with ⟨-, hrun⟩ | rfl
      · obtain ⟨K', hget, hdone⟩ := bind_eq_ok.mp hrun
        obtain rfl := Except.ok.inj hdone
        exact (getPidNs_same hget).grows hshape
      · exact hskip
  | putPidNs n =>
      rcases step_or_skip hrun with ⟨-, hrun⟩ | rfl
      · obtain ⟨K', hput, hdone⟩ := bind_eq_ok.mp hrun
        obtain rfl := Except.ok.inj hdone
        exact (putPidNs_same hput).grows hshape
      · exact hskip
  | allocPid n adding =>
      rcases step_or_skip hrun with ⟨hn, hrun⟩ | rfl
      · obtain ⟨⟨K', o⟩, halloc, hdone⟩ := bind_eq_ok.mp hrun
        have hgrows : Grows maxPidNsLevel s.K K' := hs.counted.allocPid_grows hn halloc
        cases o <;> obtain rfl := Except.ok.inj hdone <;> exact hgrows
      · exact hskip
  | freePid p =>
      rcases step_or_skip hrun with ⟨-, hrun⟩ | rfl
      · obtain rfl := Except.ok.inj hrun
        exact SameNs.grows ⟨rfl, rfl, rfl, fun _ => rfl⟩ hshape
      · exact hskip
  | getPid p =>
      rcases step_or_skip hrun with ⟨-, hrun⟩ | rfl
      · obtain ⟨K', hget, hdone⟩ := bind_eq_ok.mp hrun
        obtain rfl := Except.ok.inj hdone
        obtain ⟨d, hd, hget⟩ := bind_eq_ok.mp hget
        obtain rfl := Except.ok.inj hget
        refine .of_ns hshape rfl (le_refl _) (fun hd' => ⟨_, hd', rfl⟩) fun _ hd' => ?_
        rcases update_eq_some hd' with ⟨rfl, heq⟩ | ⟨-, hd'⟩
        · rw [← Option.some.inj heq]
          exact ⟨d, derefPid_eq_ok.mp hd, rfl⟩
        · exact ⟨_, hd', rfl⟩
      · exact hskip
  | putPid p =>
      rcases step_or_skip hrun with ⟨-, hrun⟩ | rfl
      · obtain ⟨K', hput, hdone⟩ := bind_eq_ok.mp hrun
        obtain rfl := Except.ok.inj hdone
        exact putPid_grows hshape hput
      · exact hskip
  | callback g =>
      rcases step_or_skip hrun with ⟨-, hrun⟩ | rfl
      · obtain ⟨K', hcall, hdone⟩ := bind_eq_ok.mp hrun
        obtain rfl := Except.ok.inj hdone
        exact rcuCallback_grows hshape hcall
      · exact hskip

end KernelPid.Lifetime
