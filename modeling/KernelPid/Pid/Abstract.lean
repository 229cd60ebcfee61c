import KernelPid.Pid.Basic
import KernelPid.Skiplist.Writer
import KernelPid.RbSkiplist.Invariant

/-!
# Pids over finite maps

What `pid.c` does depends on its lists only as far as they are finite maps from numbers to pids.
`Simulates` says that a build's list follows such a map, as long as new nodes are made with levels
that the build can bear: any level for the plain list, any but the top one for the RB list.
`KernelSim` puts the maps in the place of the lists of a whole kernel.
-/

namespace KernelPid

open Runs PidSkiplist

variable {σ ι : Type}

/-! ## Lists as maps -/

/-- The map after `pid_skiplist_insert`, and the status it returns. -/
def insertMap (m : Bindings PidAddr) (k : ℤ) (v : Option PidAddr) (env : NodeEnv) :
    Bindings PidAddr × ℤ :=
  if (m k).isSome ∨ env.ok then (Function.update m k (some v), 0) else (m, -ENOMEM)

theorem insertMap_taken {m : Bindings PidAddr} {k : ℤ} {env : NodeEnv}
    (h : m k ≠ none ∨ env.ok = true) (v : Option PidAddr) :
    insertMap m k v env = (Function.update m k (some v), 0) := by
  refine if_pos ?_
  rcases h with h | h
  · exact Or.inl (Option.isSome_iff_ne_none.mpr h)
  · exact Or.inr h

theorem insertMap_refused {m : Bindings PidAddr} {k : ℤ} {env : NodeEnv} (hk : m k = none)
    (henv : env.ok = false) (v : Option PidAddr) : insertMap m k v env = (m, -ENOMEM) := by
  refine if_neg ?_
  simp [hk, henv]

/-- An insertion of `k` into the map `m` that makes a node makes one with a level the build can
bear. -/
def Admits (adm : NodeEnv → Prop) (m : Bindings PidAddr) (k : ℤ) (env : NodeEnv) : Prop :=
  m k = none → env.ok = true → adm env

/-- The list of a build follows the map it represents. -/
structure Simulates (B : PidList σ) (Rep : σ → Bindings PidAddr → Prop) (adm : NodeEnv → Prop) :
    Prop where
  hasHeader : ∀ {s m}, Rep s m → B.hasHeader s = true
  lookupRcu : ∀ {s m}, Rep s m → ∀ k, B.lookupRcu s k = .ok (m k).join
  findGeRcu : ∀ {s m}, Rep s m → ∀ k,
    (∃ k' v, IsLeast {k' | k ≤ k' ∧ m k' ≠ none} k' ∧ m k' = some v ∧ B.findGeRcu s k = .ok v) ∨
    (∀ k', k ≤ k' → m k' = none) ∧ B.findGeRcu s k = .ok none
  insert : ∀ {s m}, Rep s m → ∀ k v env, Admits adm m k env →
    ∃ s', B.insert s k v env = .ok (s', (insertMap m k v env).2) ∧ Rep s' (insertMap m k v env).1
  remove : ∀ {s m}, Rep s m → ∀ k,
    ∃ s', B.remove s k = .ok s' ∧ Rep s' (Function.update m k none)

/-! ## The two builds -/

theorem PidSkiplist.Represents.insert_map {s : PidSkiplist PidAddr} {m : Bindings PidAddr}
    (hs : Represents s m) (k : ℤ) (v : Option PidAddr) (env : NodeEnv) :
    ∃ s', s.insert k v env = .ok (s', (insertMap m k v env).2) ∧
      Represents s' (insertMap m k v env).1 := by
  by_cases hk : m k = none
  · cases henv : env.ok with
    | true =>
        obtain ⟨s', hs', hm'⟩ := hs.insert_new hk henv v
        rw [insertMap_taken (Or.inr henv)]
        exact ⟨s', hs', hm'⟩
    | false =>
        obtain ⟨s', hs', hm'⟩ := hs.insert_enomem hk henv v
        rw [insertMap_refused hk henv]
        exact ⟨s', hs', hm'⟩
  · obtain ⟨s', hs', hm'⟩ := hs.insert_bound hk v env
    rw [insertMap_taken (Or.inl hk)]
    exact ⟨s', hs', hm'⟩

/-- The plain list follows its map whatever the levels. -/
theorem plainList_simulates : Simulates plainList Represents fun _ => True where
  hasHeader hs := by
    obtain ⟨h, L, hs, -⟩ := hs
    simp [plainList, hs.header]
  lookupRcu hs k := hs.lookupRcu k
  findGeRcu hs k := hs.findGeRcu_cases k
  insert hs k v env _ := hs.insert_map k v env
  remove hs k := hs.remove k

/-- The RB list represents the map, and has nothing in its tree. -/
def RbRepresents (s : PidRbSkiplist PidAddr) (m : Bindings PidAddr) : Prop :=
  (∃ h L, PidRbSkiplist.RbInv s h L) ∧ Represents s.toPidSkiplist m ∧ s.topRbRoot.tree = .nil

theorem rbRepresents_init : RbRepresents PidRbSkiplist.init fun _ => none :=
  ⟨⟨0, [], PidRbSkiplist.rbInv_init⟩, represents_init, rfl⟩

/-- An empty tree has no key. -/
theorem treeAvoids_of_nil {s : PidRbSkiplist PidAddr} (hs : s.topRbRoot.tree = .nil) (k : ℤ) :
    PidRbSkiplist.TreeAvoids s k := by
  intro x hx
  rw [hs] at hx
  simp [SearchTree.inorder] at hx

/-- A level below the top one. -/
def LowDraw (env : NodeEnv) : Prop := env.draw.val < pidSlMaxLevel

/-- The RB list follows its map as long as no node reaches the top level. -/
theorem rbList_simulates (rb : KernelRbtree) : Simulates (rbList rb) RbRepresents LowDraw where
  hasHeader hs := by
    obtain ⟨⟨h, L, hs⟩, -, -⟩ := hs
    simp [rbList, hs.header]
  lookupRcu hs k := by
    obtain ⟨⟨h, L, hs⟩, hm, htree⟩ := hs
    exact (hs.lookupRcu_eq (treeAvoids_of_nil htree k)).trans (hm.lookupRcu k)
  findGeRcu hs k := by
    obtain ⟨⟨h, L, hs⟩, hm, htree⟩ := hs
    have heq := hs.findGeRcu_eq (treeAvoids_of_nil htree k)
    simpa only [rbList, heq] using hm.findGeRcu_cases k
  insert hs k v env hadm := by
    obtain ⟨⟨h, L, hs⟩, hm, htree⟩ := hs
    obtain ⟨s', r, L', hins, hplain, hinv, htree'⟩ :=
      hs.insert_eq rb (treeAvoids_of_nil htree k) v env
    obtain ⟨sl, hsl, hm'⟩ := hm.insert_map k v env
    obtain ⟨rfl, rfl⟩ := Prod.mk.inj (Except.ok.inj (hplain.symm.trans hsl))
    rw [hm.eq_bindings] at hadm
    refine ⟨s', hins, ⟨h, L', hinv⟩, hm', ?_⟩
    rw [htree' fun hnew henv => hadm (hs.toInv.bindings_eq_none_iff.mpr hnew) henv, htree]
  remove hs k := by
    obtain ⟨⟨h, L, hs⟩, hm, htree⟩ := hs
    obtain ⟨s', L', hrem, hplain, hinv, htree'⟩ := hs.remove_eq rb (treeAvoids_of_nil htree k)
    obtain ⟨sl, hsl, hm'⟩ := hm.remove k
    obtain rfl := Except.ok.inj (hplain.symm.trans hsl)
    exact ⟨s', hrem, ⟨h, L', hinv⟩, hm', by rw [htree', htree]⟩

/-! ## A kernel over maps -/

/-- The kernel with maps for its lists. -/
abbrev MapKernel (ι : Type) := Kernel (Bindings PidAddr) ι

/-- The namespace `d` is the namespace `a`, with the build's list for the map. -/
structure NsSim (Rep : σ → Bindings PidAddr → Prop) (d : PidNamespace σ)
    (a : PidNamespace (Bindings PidAddr)) : Prop where
  pidSl : Rep d.pidSl a.pidSl
  lastPid : d.lastPid = a.lastPid
  pidAllocated : d.pidAllocated = a.pidAllocated

/-- The kernel `K` is the kernel `A`, with the build's lists for the maps. -/
structure KernelSim (Rep : σ → Bindings PidAddr → Prop) (K : Kernel σ ι) (A : MapKernel ι) :
    Prop where
  ns : ∀ n, NsSim Rep (K.ns n) (A.ns n)
  pid : K.pid = A.pid
  brk : K.brk = A.brk

section KernelSim

variable {Rep : σ → Bindings PidAddr → Prop} {K : Kernel σ ι} {A : MapKernel ι}

theorem KernelSim.setNs [DecidableEq ι] (hK : KernelSim Rep K A) (n : ι) {d : PidNamespace σ}
    {a : PidNamespace (Bindings PidAddr)} (hd : NsSim Rep d a) :
    KernelSim Rep (K.setNs n d) (A.setNs n a) := by
  refine ⟨fun n' => ?_, hK.pid, hK.brk⟩
  by_cases hn : n' = n
  · subst hn
    simpa [Kernel.setNs] using hd
  · simpa [Kernel.setNs, hn] using hK.ns n'

theorem KernelSim.setNumber (hK : KernelSim Rep K A) (p : PidAddr) (i : ℕ) (u : Upid ι) :
    KernelSim Rep (K.setNumber p i u) (A.setNumber p i u) :=
  ⟨hK.ns, by simp only [Kernel.setNumber, hK.pid], hK.brk⟩

theorem KernelSim.freePidStruct (hK : KernelSim Rep K A) (p : PidAddr) :
    KernelSim Rep (K.freePidStruct p) (A.freePidStruct p) :=
  ⟨hK.ns, by simp only [Kernel.freePidStruct, hK.pid], hK.brk⟩

theorem KernelSim.derefPid (hK : KernelSim Rep K A) (p : PidAddr) :
    K.derefPid p = A.derefPid p := by
  simp only [Kernel.derefPid, hK.pid]

theorem KernelSim.derefPid_eq (hK : KernelSim Rep K A) {p : PidAddr} {d : PidStruct ι}
    (hd : A.pid p = some d) : K.derefPid p = .ok d := by
  rw [hK.derefPid, Kernel.derefPid, hd]

theorem KernelSim.isChildReaper (hK : KernelSim Rep K A) (p : PidAddr) :
    isChildReaper K p = isChildReaper A p := by
  simp only [KernelPid.isChildReaper, hK.derefPid]

end KernelSim

end KernelPid
