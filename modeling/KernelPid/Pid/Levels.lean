import KernelPid.Lib.Ancestors
import KernelPid.Pid.Abstract

/-!
# The levels of a `struct pid`

A `struct pid` of a namespace has numbers in the namespace and in its ancestors, from some level on
while `alloc_pid` is still reserving: `NumbersFrom`. No two of these namespaces are the same, so a
loop over levels updates each of them once, from what it held before the loop: `LevelsApplied`.
-/

namespace KernelPid

open Runs PidSkiplist Ancestors

variable {σ τ ι : Type} {T : PidNsTree ι} {d : PidStruct ι} {ns : ι} {lo : ℕ}

/-- `n` is `ns` or one of the namespaces above it. -/
abbrev PidNsTree.IsAncestor (T : PidNsTree ι) (ns n : ι) : Prop :=
  Ancestors.IsAncestor T.parent ns n

/-- `d` has the number `nr` in the namespace `n`. -/
def PidStruct.Owns (d : PidStruct ι) (nr : ℤ) (n : ι) : Prop :=
  ∃ j, d.numbers j = some ⟨nr, n⟩

/-- The `struct pid` at `p` has the number `nr` in the namespace `n`. -/
def Kernel.Owns (K : Kernel σ ι) (p : PidAddr) (nr : ℤ) (n : ι) : Prop :=
  ∃ d, K.pid p = some d ∧ d.Owns nr n

theorem Kernel.owns_iff {K : Kernel σ ι} {p : PidAddr} (hd : K.pid p = some d) (nr : ℤ) (n : ι) :
    K.Owns p nr n ↔ d.Owns nr n := by
  simp [Kernel.Owns, hd]

/-- The numbers of a pid are those of its `struct pid`. -/
theorem Kernel.owns_congr {K : Kernel σ ι} {K' : Kernel τ ι} {p : PidAddr}
    (h : K'.pid p = K.pid p) (nr : ℤ) (n : ι) : K'.Owns p nr n ↔ K.Owns p nr n := by
  unfold Kernel.Owns
  rw [h]

/-- `d` is for a process of `ns`, and has its numbers from level `lo` up to that of `ns`. -/
structure PidStruct.NumbersFrom (T : PidNsTree ι) (d : PidStruct ι) (ns : ι) (lo : ℕ) : Prop where
  level : d.level = T.level ns
  assigned : ∀ j, lo ≤ j → j ≤ T.level ns → ∃ u, d.numbers j = some u
  lo_le : ∀ {j u}, d.numbers j = some u → lo ≤ j
  ancestor : ∀ {j u}, d.numbers j = some u → T.IsAncestor ns u.ns
  level_ns : ∀ {j u}, d.numbers j = some u → T.level u.ns = j
  pos : ∀ {j u}, d.numbers j = some u → 1 ≤ u.nr

theorem PidStruct.NumbersFrom.le_level (hd : d.NumbersFrom T ns lo) {j : ℕ} {u : Upid ι}
    (hu : d.numbers j = some u) : j ≤ T.level ns := by
  rw [← hd.level_ns hu]
  exact (hd.ancestor hu).level_le T.level_parent

/-- There is one number in each namespace. -/
theorem PidStruct.NumbersFrom.nr_unique (hd : d.NumbersFrom T ns lo) {nr nr' : ℤ} {n : ι}
    (h : d.Owns nr n) (h' : d.Owns nr' n) : nr = nr' := by
  obtain ⟨j, hj⟩ := h
  obtain ⟨j', hj'⟩ := h'
  have h₁ := hd.level_ns hj
  have h₂ := hd.level_ns hj'
  obtain rfl : j = j' := h₁.symm.trans h₂
  rw [hj] at hj'
  exact congrArg Upid.nr (Option.some.inj hj')

/-- The `struct pid` that was just allocated has no numbers. -/
theorem PidStruct.numbersFrom_new (ns : ι) :
    PidStruct.NumbersFrom T { level := T.level ns, numbers := fun _ => none } ns
      (T.level ns + 1) where
  level := rfl
  assigned j h₁ h₂ := by omega
  lo_le hu := by simp at hu
  ancestor hu := by simp at hu
  level_ns hu := by simp at hu
  pos hu := by simp at hu

/-- The number of one more level is assigned. -/
theorem PidStruct.NumbersFrom.setNumber {i : ℕ} (hd : d.NumbersFrom T ns (i + 1)) {u : Upid ι}
    (hanc : T.IsAncestor ns u.ns) (hlevel : T.level u.ns = i) (hpos : 1 ≤ u.nr) :
    PidStruct.NumbersFrom T { d with numbers := Function.update d.numbers i (some u) } ns i := by
  have hcases : ∀ {j u'}, Function.update d.numbers i (some u) j = some u' →
      (j = i ∧ u' = u) ∨ d.numbers j = some u' := by
    intro j u' hu'
    by_cases hj : j = i
    · subst hj
      rw [Function.update_self] at hu'
      exact Or.inl ⟨rfl, (Option.some.inj hu').symm⟩
    · rw [Function.update_of_ne hj] at hu'
      exact Or.inr hu'
  refine ⟨hd.level, fun j h₁ h₂ => ?_, fun hu' => ?_, fun hu' => ?_, fun hu' => ?_, fun hu' => ?_⟩
  · by_cases hj : j = i
    · subst hj
      exact ⟨u, Function.update_self _ _ _⟩
    · obtain ⟨u', hu'⟩ := hd.assigned j (by omega) h₂
      exact ⟨u', by rw [← hu']; exact Function.update_of_ne hj _ _⟩
  · rcases hcases hu' with ⟨rfl, -⟩ | hu'
    · exact le_refl _
    · have := hd.lo_le hu'
      omega
  · rcases hcases hu' with ⟨-, rfl⟩ | hu'
    · exact hanc
    · exact hd.ancestor hu'
  · rcases hcases hu' with ⟨rfl, rfl⟩ | hu'
    · exact hlevel
    · exact hd.level_ns hu'
  · rcases hcases hu' with ⟨-, rfl⟩ | hu'
    · exact hpos
    · exact hd.pos hu'

/-! ## What a loop over levels does -/

/-- `N'` is `N`, with `f` done to each namespace that `d` has a number in, at the levels in `S`. -/
structure LevelsApplied (d : PidStruct ι) (S : ℕ → Prop)
    (f : ℕ → ℤ → PidNamespace τ → PidNamespace τ) (N N' : ι → PidNamespace τ) : Prop where
  on : ∀ {j u}, S j → d.numbers j = some u → N' u.ns = f j u.nr (N u.ns)
  off : ∀ {n}, (∀ j u, S j → d.numbers j = some u → u.ns ≠ n) → N' n = N n

section LevelsApplied

variable {S : ℕ → Prop} {f : ℕ → ℤ → PidNamespace τ → PidNamespace τ} {N N' : ι → PidNamespace τ}

theorem LevelsApplied.nil (hS : ∀ j, ¬ S j) : LevelsApplied d S f N N :=
  ⟨fun hj _ => absurd hj (hS _), fun _ => rfl⟩

/-- One more level, before the others. -/
theorem LevelsApplied.cons [DecidableEq ι] (hd : d.NumbersFrom T ns lo) {i : ℕ} {u : Upid ι}
    (hu : d.numbers i = some u) (hi : ¬ S i)
    (h : LevelsApplied d S f (Function.update N u.ns (f i u.nr (N u.ns))) N') :
    LevelsApplied d (fun j => j = i ∨ S j) f N N' := by
  have hne : ∀ {j u'}, S j → d.numbers j = some u' → u'.ns ≠ u.ns := by
    intro j u' hj hu' heq
    have h₁ := hd.level_ns hu
    have h₂ := hd.level_ns hu'
    rw [heq, h₁] at h₂
    exact hi (h₂ ▸ hj)
  refine ⟨fun {j u'} hj hu' => ?_, fun {n} hn => ?_⟩
  · rcases hj with rfl | hj
    · rw [hu] at hu'
      obtain rfl := Option.some.inj hu'
      rw [h.off fun j u' hj hu' => hne hj hu', Function.update_self]
    · rw [h.on hj hu', Function.update_of_ne (hne hj hu')]
  · rw [h.off fun j u' hj hu' => hn j u' (Or.inr hj) hu']
    exact Function.update_of_ne (fun heq => hn i u (Or.inl rfl) hu heq.symm) _ _

theorem LevelsApplied.imp {S' : ℕ → Prop} (hS : ∀ j u, d.numbers j = some u → (S j ↔ S' j))
    (h : LevelsApplied d S f N N') : LevelsApplied d S' f N N' :=
  ⟨fun {j u} hj hu => h.on ((hS j u hu).mpr hj) hu,
    fun hn => h.off fun j u hj hu => hn j u ((hS j u hu).mp hj) hu⟩

/-- A namespace that `d` has a number in is updated, and any other is left alone. -/
theorem LevelsApplied.ns_cases (h : LevelsApplied d (fun _ => True) f N N') (n : ι) :
    (∃ j nr, d.numbers j = some ⟨nr, n⟩ ∧ N' n = f j nr (N n)) ∨
    (∀ nr, ¬ d.Owns nr n) ∧ N' n = N n := by
  by_cases ho : ∃ nr, d.Owns nr n
  · obtain ⟨nr, j, hj⟩ := ho
    exact Or.inl ⟨j, nr, hj, h.on trivial hj⟩
  · refine Or.inr ⟨fun nr hnr => ho ⟨nr, hnr⟩, h.off fun j u _ hu heq => ho ⟨u.nr, j, ?_⟩⟩
    rw [hu, ← heq]

/-- A loop whose body keeps a field of the namespace keeps it everywhere. -/
theorem LevelsApplied.keeps {α : Type} (h : LevelsApplied d (fun _ => True) f N N')
    (g : PidNamespace τ → α) (hf : ∀ j nr a, g (f j nr a) = g a) (n : ι) : g (N' n) = g (N n) := by
  rcases h.ns_cases n with ⟨j, nr, -, hn⟩ | ⟨-, hn⟩
  · rw [hn, hf]
  · rw [hn]

end LevelsApplied

/-! ## What the loops of `pid.c` do -/

/-- What a reservation does to a namespace over maps. -/
def reserveNs (_ : ℕ) (nr : ℤ) (a : PidNamespace (Bindings PidAddr)) :
    PidNamespace (Bindings PidAddr) :=
  { a with pidSl := Function.update a.pidSl nr (some none), lastPid := nr }

/-- What publication does to a namespace over maps. -/
def publishNs (p : PidAddr) (node : ℕ → NodeEnv) (i : ℕ) (nr : ℤ)
    (a : PidNamespace (Bindings PidAddr)) : PidNamespace (Bindings PidAddr) :=
  { a with pidSl := (insertMap a.pidSl nr (some p) (node i)).1, pidAllocated := a.pidAllocated + 1 }

/-- What a rollback does to a namespace over maps. -/
def rollbackNs (_ : ℕ) (nr : ℤ) (a : PidNamespace (Bindings PidAddr)) :
    PidNamespace (Bindings PidAddr) :=
  { a with pidSl := Function.update a.pidSl nr none }

/-- What `free_pid` does to a namespace over maps. -/
def freeNs (_ : ℕ) (nr : ℤ) (a : PidNamespace (Bindings PidAddr)) :
    PidNamespace (Bindings PidAddr) :=
  { a with pidSl := Function.update a.pidSl nr none, pidAllocated := decAllocated a.pidAllocated }

theorem publishNs_of_ne {p : PidAddr} {node : ℕ → NodeEnv} (i : ℕ) {nr k : ℤ}
    (a : PidNamespace (Bindings PidAddr)) (hk : k ≠ nr) :
    (publishNs p node i nr a).pidSl k = a.pidSl k := by
  unfold publishNs insertMap
  split
  · exact Function.update_of_ne hk _ _
  · rfl

/-- Publication binds a number that is bound, and may fail to bind another one. -/
theorem publishNs_self {p : PidAddr} {node : ℕ → NodeEnv} {i : ℕ} {nr : ℤ}
    {a : PidNamespace (Bindings PidAddr)} (hb : a.pidSl nr ≠ none ∨ (node i).ok = true) :
    (publishNs p node i nr a).pidSl nr = some (some p) := by
  simp only [publishNs, insertMap_taken hb, Function.update_self]

theorem reserveNs_of_ne (i : ℕ) {nr k : ℤ} (a : PidNamespace (Bindings PidAddr)) (hk : k ≠ nr) :
    (reserveNs i nr a).pidSl k = a.pidSl k :=
  Function.update_of_ne hk _ _

theorem reserveNs_self (i : ℕ) (nr : ℤ) (a : PidNamespace (Bindings PidAddr)) :
    (reserveNs i nr a).pidSl nr = some none :=
  Function.update_self _ _ _

theorem rollbackNs_of_ne (i : ℕ) {nr k : ℤ} (a : PidNamespace (Bindings PidAddr)) (hk : k ≠ nr) :
    (rollbackNs i nr a).pidSl k = a.pidSl k :=
  Function.update_of_ne hk _ _

theorem rollbackNs_self (i : ℕ) (nr : ℤ) (a : PidNamespace (Bindings PidAddr)) :
    (rollbackNs i nr a).pidSl nr = none :=
  Function.update_self _ _ _

theorem freeNs_of_ne (i : ℕ) {nr k : ℤ} (a : PidNamespace (Bindings PidAddr)) (hk : k ≠ nr) :
    (freeNs i nr a).pidSl k = a.pidSl k :=
  Function.update_of_ne hk _ _

theorem freeNs_self (i : ℕ) (nr : ℤ) (a : PidNamespace (Bindings PidAddr)) :
    (freeNs i nr a).pidSl nr = none :=
  Function.update_self _ _ _

section Bindings

variable {f : ℕ → ℤ → PidNamespace (Bindings PidAddr) → PidNamespace (Bindings PidAddr)}
  {N N' N'' : ι → PidNamespace (Bindings PidAddr)} {n : ι} {nr : ℤ} {v w : Option (Option PidAddr)}

/-- The numbers of `d` are bound to `v` in `N'`, and all others as in `N`. -/
structure Rebound (d : PidStruct ι) (v : Option (Option PidAddr))
    (N N' : ι → PidNamespace (Bindings PidAddr)) : Prop where
  own : ∀ {n nr}, d.Owns nr n → (N' n).pidSl nr = v
  other : ∀ {n nr}, ¬ d.Owns nr n → (N' n).pidSl nr = (N n).pidSl nr

theorem Rebound.trans (h : Rebound d v N N') (h' : Rebound d w N' N'') : Rebound d w N N'' :=
  ⟨h'.own, fun ho => (h'.other ho).trans (h.other ho)⟩

theorem Rebound.congr (h : Rebound d v N N') (heq : ∀ n, (N'' n).pidSl = (N' n).pidSl) :
    Rebound d v N N'' :=
  ⟨fun ho => by rw [heq]; exact h.own ho, fun ho => by rw [heq]; exact h.other ho⟩

/-- A loop that changes a list at the number of the level only keeps all numbers that `d` does not
have. -/
theorem LevelsApplied.pidSl_of_not_owns (h : LevelsApplied d (fun _ => True) f N N')
    (ho : ¬ d.Owns nr n) (hf : ∀ j k a, nr ≠ k → (f j k a).pidSl nr = a.pidSl nr) :
    (N' n).pidSl nr = (N n).pidSl nr := by
  rcases h.ns_cases n with ⟨j, k, hj, hn⟩ | ⟨-, hn⟩
  · rw [hn, hf j k _ fun hk => ho ⟨j, hk ▸ hj⟩]
  · rw [hn]

/-- A loop that binds the number of the level to `v`, and changes nothing else. -/
theorem LevelsApplied.rebound (h : LevelsApplied d (fun _ => True) f N N')
    (hown : ∀ {n nr}, d.Owns nr n → ∀ j, (f j nr (N n)).pidSl nr = v)
    (hother : ∀ j {k nr : ℤ} a, nr ≠ k → (f j k a).pidSl nr = a.pidSl nr) : Rebound d v N N' := by
  refine ⟨fun {n nr} ho => ?_, fun ho => h.pidSl_of_not_owns ho fun j _ a => hother j a⟩
  have ho' := ho
  obtain ⟨j, hj⟩ := ho
  rw [h.on trivial hj]
  exact hown ho' j

theorem LevelsApplied.rebound_reserve (h : LevelsApplied d (fun _ => True) reserveNs N N') :
    Rebound d (some none) N N' :=
  h.rebound (fun _ j => reserveNs_self j _ _) fun j _ _ a => reserveNs_of_ne j a

theorem LevelsApplied.rebound_rollback (h : LevelsApplied d (fun _ => True) rollbackNs N N') :
    Rebound d none N N' :=
  h.rebound (fun _ j => rollbackNs_self j _ _) fun j _ _ a => rollbackNs_of_ne j a

theorem LevelsApplied.rebound_free (h : LevelsApplied d (fun _ => True) freeNs N N') :
    Rebound d none N N' :=
  h.rebound (fun _ j => freeNs_self j _ _) fun j _ _ a => freeNs_of_ne j a

/-- Publication binds all the numbers, if they are bound already. -/
theorem LevelsApplied.rebound_publish {p : PidAddr} {node : ℕ → NodeEnv}
    (h : LevelsApplied d (fun _ => True) (publishNs p node) N N')
    (hbound : ∀ {n nr}, d.Owns nr n → (N n).pidSl nr ≠ none) : Rebound d (some (some p)) N N' :=
  h.rebound (fun ho _ => publishNs_self (Or.inl (hbound ho))) fun j _ _ a => publishNs_of_ne j a

end Bindings

/-! ## The loops -/

variable {B : PidList σ} {Rep : σ → Bindings PidAddr → Prop} {adm : NodeEnv → Prop}
  {K : Kernel σ ι} {A : MapKernel ι}

/-- A loop whose body refines `F` at each level refines `F` done at all of them. -/
theorem KernelSim.eachLevel [DecidableEq ι] (hd : d.NumbersFrom T ns lo)
    {f : ℕ → ℤ → PidNamespace σ → Except Fault (PidNamespace σ)}
    {F : ℕ → ℤ → PidNamespace (Bindings PidAddr) → PidNamespace (Bindings PidAddr)}
    {is : List ℕ} (hnodup : is.Nodup) (his : ∀ i ∈ is, lo ≤ i ∧ i ≤ T.level ns)
    (hK : KernelSim Rep K A)
    (hf : ∀ i u x, i ∈ is → d.numbers i = some u → NsSim Rep x (A.ns u.ns) →
      ∃ x', f i u.nr x = .ok x' ∧ NsSim Rep x' (F i u.nr (A.ns u.ns))) :
    ∃ K' N', KernelPid.eachLevel d f is K = .ok K' ∧ KernelSim Rep K' { A with ns := N' } ∧
      LevelsApplied d (· ∈ is) F A.ns N' := by
  induction is generalizing K A with
  | nil => exact ⟨K, A.ns, rfl, hK, LevelsApplied.nil fun j => by simp⟩
  | cons i is ih =>
      obtain ⟨hi, hnodup⟩ := List.nodup_cons.mp hnodup
      obtain ⟨u, hu⟩ := hd.assigned i (his i (by simp)).1 (his i (by simp)).2
      obtain ⟨x', hx', hsim⟩ := hf i u _ (by simp) hu (hK.ns u.ns)
      have hK₁ := hK.setNs u.ns hsim
      obtain ⟨K', N', hrun, hK', happ⟩ := ih hnodup (fun j hj => his j (by simp [hj])) hK₁
        fun j u' x hj hu' hx => by
          -- another level, so another namespace
          have hne : u'.ns ≠ u.ns := by
            intro heq
            have h₁ := hd.level_ns hu
            have h₂ := hd.level_ns hu'
            rw [heq, h₁] at h₂
            exact hi (h₂ ▸ hj)
          have hsame : (A.setNs u.ns (F i u.nr (A.ns u.ns))).ns u'.ns = A.ns u'.ns :=
            Function.update_of_ne hne _ _
          rw [hsame] at hx ⊢
          exact hf j u' x (by simp [hj]) hu' hx
      refine ⟨K', N', ?_, hK', ?_⟩
      · simp only [KernelPid.eachLevel, PidStruct.number, hu, ok_bind, hx', hrun]
      · exact (happ.cons hd hu hi).imp fun j _ _ => by simp

theorem Simulates.publishLevels [DecidableEq ι] (hB : Simulates B Rep adm) (hK : KernelSim Rep K A)
    (hd : d.NumbersFrom T ns 0) {p : PidAddr} {node : ℕ → NodeEnv}
    (hadm : ∀ i u, d.numbers i = some u → Admits adm (A.ns u.ns).pidSl u.nr (node i)) :
    ∃ K' N', KernelPid.publishLevels B p d node (T.level ns) K = .ok K' ∧
      KernelSim Rep K' { A with ns := N' } ∧
      LevelsApplied d (fun _ => True) (publishNs p node) A.ns N' := by
  obtain ⟨K', N', hrun, hK', happ⟩ := hK.eachLevel hd (f := publishLevel B p node)
    (F := publishNs p node)
    (List.nodup_reverse.mpr List.nodup_range : (List.range (T.level ns + 1)).reverse.Nodup)
    (fun i hi => by simp at hi; omega) fun i u x _ hu hx => by
      obtain ⟨s', hs', hm'⟩ := hB.insert hx.pidSl u.nr (some p) (node i) (hadm i u hu)
      refine ⟨{ x with pidSl := s', pidAllocated := x.pidAllocated + 1 }, ?_, hm', hx.lastPid, ?_⟩
      · simp only [publishLevel, hs', ok_bind]
      · simp only [publishNs, hx.pidAllocated]
  refine ⟨K', N', hrun, hK', happ.imp fun j u hu => ?_⟩
  have := hd.le_level hu
  simp
  omega

theorem Simulates.rollbackLevels [DecidableEq ι] (hB : Simulates B Rep adm) (hK : KernelSim Rep K A)
    (hd : d.NumbersFrom T ns lo) :
    ∃ K' N', KernelPid.rollbackLevels B d lo (T.level ns) K = .ok K' ∧
      KernelSim Rep K' { A with ns := N' } ∧
      LevelsApplied d (fun _ => True) rollbackNs A.ns N' := by
  obtain ⟨K', N', hrun, hK', happ⟩ := hK.eachLevel hd (f := rollbackLevel B) (F := rollbackNs)
    (List.nodup_range' : (List.range' lo (T.level ns + 1 - lo)).Nodup)
    (fun i hi => by simp [List.mem_range'_1] at hi; omega)
    fun i u x _ hu hx => by
      obtain ⟨s', hs', hm'⟩ := hB.remove hx.pidSl u.nr
      refine ⟨{ x with pidSl := s' }, ?_, hm', hx.lastPid, hx.pidAllocated⟩
      simp only [rollbackLevel, hs', ok_bind]
  refine ⟨K', N', hrun, hK', happ.imp fun j u hu => ?_⟩
  have h₁ := hd.le_level hu
  have h₂ := hd.lo_le hu
  simp [List.mem_range'_1]
  omega

theorem Simulates.freeLevels [DecidableEq ι] (hB : Simulates B Rep adm) (hK : KernelSim Rep K A)
    (hd : d.NumbersFrom T ns 0) :
    ∃ K' N', KernelPid.eachLevel d (freeLevel B) (List.range (d.level + 1)) K = .ok K' ∧
      KernelSim Rep K' { A with ns := N' } ∧ LevelsApplied d (fun _ => True) freeNs A.ns N' := by
  obtain ⟨K', N', hrun, hK', happ⟩ := hK.eachLevel hd (f := freeLevel B) (F := freeNs)
    (List.nodup_range : (List.range (d.level + 1)).Nodup)
    (fun i hi => by simp [hd.level] at hi; omega) fun i u x _ hu hx => by
      obtain ⟨s', hs', hm'⟩ := hB.remove hx.pidSl u.nr
      refine ⟨{ x with pidSl := s', pidAllocated := decAllocated x.pidAllocated }, ?_, hm',
        hx.lastPid, ?_⟩
      · simp only [freeLevel, hs', ok_bind]
      · simp only [freeNs, hx.pidAllocated]
  refine ⟨K', N', hrun, hK', happ.imp fun j u hu => ?_⟩
  have := hd.le_level hu
  simp [hd.level]
  omega

end KernelPid
