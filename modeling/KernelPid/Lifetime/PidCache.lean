import KernelPid.Lib.LazyCells
import KernelPid.Lib.Runs
import Mathlib.Data.List.Nodup

/-!
# The caches that pids come from (`create_pid_cachep`)

A `struct pid` ends in an array with one `struct upid` for each level, so each level has a slab
cache of its own. `create_pid_namespace` asks for it with `create_pid_cachep`, which makes it when
there is none yet, and any number of tasks may be in there at once. `level` is at least 1: level 0
is `init_pid_ns`, which has its own cache.
-/

namespace KernelPid.PidCache

open Runs LazyCells

/-- Addresses of `struct kmem_cache`s. -/
abbrev CacheAddr := ℕ

/-- `pid_cache` has no such entry. -/
inductive Fault
  | outOfBounds
deriving DecidableEq

/-- `struct kmem_cache`: the number that its name `"pid_%u"` ends in, and the size of
its objects. -/
structure KmemCache where
  name : ℕ
  size : ℕ
deriving DecidableEq

variable {τ : Type}

/-- `pid_cache` and the tasks in `create_pid_cachep`, the slab caches for pids, and the level and
the `pid_cachep` of every namespace that was made. -/
structure Caches (τ : Type) where
  pidCache : LazyCells.State ℕ CacheAddr τ
  slabs : List KmemCache
  made : List (ℕ × CacheAddr)

/-- There is only `init_pid_ns`. -/
def Caches.init : Caches τ := ⟨.init, [], []⟩

/-- The cache that `create_pid_cachep(level)` makes. -/
def kmemCache (pidSize upidSize level : ℕ) : KmemCache where
  name := level + 1
  size := pidSize + level * upidSize

/-- What a task does. -/
inductive Act (τ : Type)
  /-- `create_pid_namespace`, in a namespace of level `parentLevel`, comes to
  `create_pid_cachep`. -/
  | enter (t : τ) (parentLevel : ℕ)
  /-- The next step of `create_pid_cachep`; `made` is whether `kmem_cache_create` makes a cache. -/
  | step (t : τ) (made : Bool)
  /-- `create_pid_namespace` goes on with what `create_pid_cachep` returned. -/
  | leave (t : τ)

variable [DecidableEq τ]

/-- One step, with `sizeof(struct pid)` and `sizeof(struct upid)`. A namespace is made in one
that exists. -/
def step (maxPidNsLevel pidSize upidSize : ℕ) (s : Caches τ) : Act τ → Except Fault (Caches τ)
  | .enter t parentLevel =>
    let level := parentLevel + 1
    match s.pidCache.pc t with
    | .idle =>
      if ¬ (parentLevel = 0 ∨ parentLevel ∈ s.made.map Prod.fst) then .ok s
      else if maxPidNsLevel < level then .ok s
      else .ok { s with pidCache := s.pidCache.ask t (level - 1) }
    | _ => .ok s
  | .step t made =>
    let pc := s.pidCache.pc t
    if pc.key?.any (maxPidNsLevel ≤ ·) then .error .outOfBounds
    else match pc, made with
      | .make i, true => .ok { s with
          pidCache := s.pidCache.step t (some s.slabs.length)
          slabs := s.slabs ++ [kmemCache pidSize upidSize (i + 1)] }
      | _, _ => .ok { s with pidCache := s.pidCache.step t none }
  | .leave t =>
    match s.pidCache.pc t with
    | .done i (some c) _ => .ok { s with
        pidCache := s.pidCache.leave t
        made := (i + 1, c) :: s.made }
    | .done _ none _ => .ok { s with pidCache := s.pidCache.leave t }
    | _ => .ok s

/-! ## The invariant -/

/-- The entries of `pid_cache` are the caches that were made, each for its level, from the beginning
on; a task asks for an entry that the array has, right behind those that are filled. -/
structure Filled (maxPidNsLevel pidSize upidSize : ℕ) (s : Caches τ) : Prop where
  guarded : Guarded s.pidCache
  slab : ∀ {i c}, s.pidCache.cell i = some c →
    i < maxPidNsLevel ∧ s.slabs[c]? = some (kmemCache pidSize upidSize (i + 1))
  entry : ∀ {c d}, s.slabs[c]? = some d →
    ∃ i, s.pidCache.cell i = some c ∧ d = kmemCache pidSize upidSize (i + 1)
  made : ∀ {level c}, (level, c) ∈ s.made → ∃ i, level = i + 1 ∧ s.pidCache.cell i = some c
  key : ∀ {t i}, (s.pidCache.pc t).key? = some i →
    i < maxPidNsLevel ∧ ∀ j < i, (s.pidCache.cell j).isSome
  below : ∀ {i j}, (s.pidCache.cell i).isSome → j ≤ i → (s.pidCache.cell j).isSome

variable {maxPidNsLevel pidSize upidSize : ℕ} {s : Caches τ} {t : τ}

variable (maxPidNsLevel pidSize upidSize) in
omit [DecidableEq τ] in
theorem filled_init : Filled maxPidNsLevel pidSize upidSize (Caches.init : Caches τ) where
  guarded := guarded_init
  slab h := by simp [Caches.init, State.init] at h
  entry h := by simp [Caches.init] at h
  made h := by simp [Caches.init] at h
  key h := by simp [Caches.init, State.init, Pc.key?] at h
  below h := by simp [Caches.init, State.init] at h

/-- A step that fills no entry. -/
theorem Filled.stepNone (h : Filled maxPidNsLevel pidSize upidSize s) (t : τ) :
    Filled maxPidNsLevel pidSize upidSize { s with pidCache := s.pidCache.step t none } := by
  have hcell : (s.pidCache.step t none).cell = s.pidCache.cell := by
    rcases h.guarded.step_cell t none with heq | ⟨k, v, -, -, hv, -⟩
    · exact heq
    · simp at hv
  refine ⟨h.guarded.step t none, fun hc => ?_, fun hc => ?_, fun hc => ?_, fun {u i} hi => ?_,
    fun hi hj => ?_⟩
  · exact h.slab (hcell ▸ hc)
  · simp only [hcell]
    exact h.entry hc
  · simp only [hcell]
    exact h.made hc
  · simp only [hcell]
    exact h.key ((key?_step s.pidCache t u none).symm.trans hi)
  · simp only [hcell] at hi ⊢
    exact h.below hi hj

/-- A step that fills the entry `i`. -/
theorem Filled.stepMake (h : Filled maxPidNsLevel pidSize upidSize s) {i : ℕ}
    (hpc : s.pidCache.pc t = .make i) :
    Filled maxPidNsLevel pidSize upidSize { s with
      pidCache := s.pidCache.step t (some s.slabs.length)
      slabs := s.slabs ++ [kmemCache pidSize upidSize (i + 1)] } := by
  obtain ⟨hlt, hbefore⟩ := h.key (t := t) (i := i) (by rw [hpc]; rfl)
  have hempty : s.pidCache.cell i = none := by
    have hholds := h.guarded.holds t
    rwa [hpc] at hholds
  have hcell : (s.pidCache.step t (some s.slabs.length)).cell =
      Function.update s.pidCache.cell i (some s.slabs.length) := by
    unfold State.step
    rw [hpc]
  have hmono : ∀ {j c}, s.pidCache.cell j = some c →
      Function.update s.pidCache.cell i (some s.slabs.length) j = some c := by
    intro j c hc
    rw [Function.update_of_ne _ _ _, hc]
    rintro rfl
    rw [hempty] at hc
    simp at hc
  have hsome : ∀ {j}, (s.pidCache.cell j).isSome →
      (Function.update s.pidCache.cell i (some s.slabs.length) j).isSome := by
    intro j hj
    obtain ⟨c, hc⟩ := Option.isSome_iff_exists.mp hj
    rw [hmono hc]
    rfl
  refine ⟨h.guarded.step t _, fun {j c} hc => ?_, fun {c d} hd => ?_, fun hc => ?_,
    fun {u j} hj => ?_,
    fun {j k} hj hk => ?_⟩
  · rw [hcell] at hc
    by_cases hji : j = i
    · subst hji
      rw [Function.update_self] at hc
      obtain rfl := Option.some.inj hc
      exact ⟨hlt, List.getElem?_concat_length⟩
    · rw [Function.update_of_ne hji] at hc
      obtain ⟨hj, hslab⟩ := h.slab hc
      exact ⟨hj, List.getElem?_append_left (List.getElem?_eq_some_iff.mp hslab).1 ▸ hslab⟩
  · simp only [hcell]
    rcases Nat.lt_or_ge c s.slabs.length with hc | hc
    · obtain ⟨j, hj, hdj⟩ := h.entry (List.getElem?_append_left hc ▸ hd)
      exact ⟨j, hmono hj, hdj⟩
    · have hbound := (List.getElem?_eq_some_iff.mp hd).1
      obtain rfl : c = s.slabs.length := by
        rw [List.length_append, List.length_singleton] at hbound
        exact Nat.le_antisymm (Nat.le_of_lt_succ hbound) hc
      rw [List.getElem?_concat_length] at hd
      exact ⟨i, Function.update_self _ _ _, (Option.some.inj hd).symm⟩
  · obtain ⟨j, hlevel, hj⟩ := h.made hc
    simp only [hcell]
    exact ⟨j, hlevel, hmono hj⟩
  · obtain ⟨hbound, hfull⟩ := h.key ((key?_step s.pidCache t u _).symm.trans hj)
    simp only [hcell]
    exact ⟨hbound, fun k hk => hsome (hfull k hk)⟩
  · simp only [hcell] at hj ⊢
    by_cases hji : j = i
    · subst hji
      rcases Nat.lt_or_eq_of_le hk with hlt | rfl
      · exact hsome (hbefore k hlt)
      · exact hj
    · rw [Function.update_of_ne hji] at hj
      exact hsome (h.below hj hk)

/-- A task that moves without a step of `create_pid_cachep`. -/
theorem Filled.setPc (h : Filled maxPidNsLevel pidSize upidSize s) {pc : Pc ℕ CacheAddr}
    {made : List (ℕ × CacheAddr)} (hguarded : Guarded (s.pidCache.setPc t pc))
    (hkey : ∀ i, pc.key? = some i → i < maxPidNsLevel ∧ ∀ j < i, (s.pidCache.cell j).isSome)
    (hmade : ∀ {level c}, (level, c) ∈ made → ∃ i, level = i + 1 ∧ s.pidCache.cell i = some c) :
    Filled maxPidNsLevel pidSize upidSize { s with pidCache := s.pidCache.setPc t pc, made } := by
  refine ⟨hguarded, h.slab, h.entry, hmade, fun {u i} hi => ?_, h.below⟩
  by_cases hu : u = t
  · subst hu
    exact hkey i (by simpa [State.setPc] using hi)
  · exact h.key (t := u) (by simpa [State.setPc, Function.update_of_ne hu] using hi)

/-- Each step keeps the invariant, and none of the entries is written twice. -/
theorem Filled.step (h : Filled maxPidNsLevel pidSize upidSize s) (a : Act τ) :
    ∃ s', PidCache.step maxPidNsLevel pidSize upidSize s a = .ok s' ∧
      Filled maxPidNsLevel pidSize upidSize s' ∧
      ∀ {i c}, s.pidCache.cell i = some c → s'.pidCache.cell i = some c := by
  cases a with
  | enter t parentLevel =>
      simp only [PidCache.step]
      split
      · next hidle =>
        split
        · exact ⟨s, rfl, h, id⟩
        · next hparent =>
          split
          · exact ⟨s, rfl, h, id⟩
          · next hlevel =>
            refine ⟨_, rfl, h.setPc (h.guarded.ask hidle _) (fun i hi => ?_) h.made, id⟩
            obtain rfl : parentLevel = i := Option.some.inj hi
            refine ⟨by omega, fun j hj => ?_⟩
            rcases not_not.mp hparent with hzero | hmem
            · omega
            · obtain ⟨⟨level, c⟩, hc, rfl⟩ := List.mem_map.mp hmem
              obtain ⟨k, hk, hcell⟩ := h.made hc
              refine h.below (i := k) ?_ ?_
              · rw [hcell]
                rfl
              · simp only at hj hk
                omega
      · exact ⟨s, rfl, h, id⟩
  | step t made =>
      have hbound : ¬ ((s.pidCache.pc t).key?.any (maxPidNsLevel ≤ ·) = true) := by
        intro hany
        obtain ⟨i, hi, hle⟩ := (Option.any_eq_true ..).mp hany
        exact absurd (h.key hi).1 (Nat.not_lt.mpr (by simpa using hle))
      simp only [PidCache.step, if_neg hbound]
      split
      · next i hpc =>
        exact ⟨_, rfl, h.stepMake hpc, fun hc => h.guarded.step_eq_some hc t _⟩
      · exact ⟨_, rfl, h.stepNone t, fun hc => h.guarded.step_eq_some hc t _⟩
  | leave t =>
      simp only [PidCache.step]
      split
      · next i c failed hpc =>
        have hcell : s.pidCache.cell i = some c := by
          have hholds := h.guarded.holds t
          rwa [hpc] at hholds
        refine ⟨_, rfl, h.setPc (h.guarded.leave hpc) (fun _ hi => by simp [Pc.key?] at hi) ?_, id⟩
        intro level c' hc'
        rcases List.mem_cons.mp hc' with heq | hold
        · obtain ⟨rfl, rfl⟩ := Prod.mk.inj heq
          exact ⟨i, rfl, hcell⟩
        · exact h.made hold
      · next i failed hpc =>
        exact ⟨_, rfl, h.setPc (h.guarded.leave hpc) (fun _ hi => by simp [Pc.key?] at hi) h.made,
          id⟩
      · exact ⟨s, rfl, h, id⟩

theorem run_filled (h : Filled maxPidNsLevel pidSize upidSize s) (as : List (Act τ)) :
    ∃ s', run (PidCache.step maxPidNsLevel pidSize upidSize) s as = .ok s' ∧
      Filled maxPidNsLevel pidSize upidSize s' ∧
      ∀ {i c}, s.pidCache.cell i = some c → s'.pidCache.cell i = some c := by
  refine run_invariant_always (I := fun s' => Filled maxPidNsLevel pidSize upidSize s' ∧
    ∀ {i c}, s.pidCache.cell i = some c → s'.pidCache.cell i = some c)
      (fun s' a h' => ?_) ⟨h, id⟩ as
  obtain ⟨s'', hrun, hfilled, hmono⟩ := h'.1.step a
  exact ⟨s'', hrun, hfilled, fun hc => hmono (h'.2 hc)⟩

omit [DecidableEq τ] in
/-- No two slab caches have the same name. -/
theorem Filled.nodup_names (h : Filled maxPidNsLevel pidSize upidSize s) :
    (s.slabs.map KmemCache.name).Nodup := by
  rw [List.nodup_iff_getElem?_ne_getElem?]
  intro c c' hlt hc' heq
  rw [List.length_map] at hc'
  have hc : c < s.slabs.length := Nat.lt_trans hlt hc'
  rw [List.getElem?_map, List.getElem?_map, List.getElem?_eq_getElem hc',
    List.getElem?_eq_getElem hc, Option.map_some, Option.map_some] at heq
  obtain ⟨i, hi, hd⟩ := h.entry (List.getElem?_eq_getElem hc)
  obtain ⟨j, hj, hd'⟩ := h.entry (List.getElem?_eq_getElem hc')
  rw [hd, hd'] at heq
  have hij : i = j := by
    have hnames : i + 1 + 1 = j + 1 + 1 := Option.some.inj heq
    omega
  rw [hij, hj] at hi
  exact absurd (Option.some.inj hi) (Nat.ne_of_gt hlt)

/-- Any number of tasks make namespaces at once, in any order. No one looks outside of `pid_cache`;
its entries are written once, and filled from the beginning; no two caches have the same name;
every namespace has the one cache of its level, with room for its numbers; and a call that returns
`NULL` could not make a cache itself. -/
theorem one_pid_cache (maxPidNsLevel pidSize upidSize : ℕ) (as bs : List (Act τ)) :
    ∃ s s', run (PidCache.step maxPidNsLevel pidSize upidSize) .init as = .ok s ∧
      run (PidCache.step maxPidNsLevel pidSize upidSize) s bs = .ok s' ∧
      (∀ i c, s.pidCache.cell i = some c → s'.pidCache.cell i = some c) ∧
      (∀ i j, (s.pidCache.cell i).isSome → j ≤ i → (s.pidCache.cell j).isSome) ∧
      (s.slabs.map KmemCache.name).Nodup ∧
      (∀ level c, (level, c) ∈ s.made → 1 ≤ level ∧ level ≤ maxPidNsLevel ∧
        s.pidCache.cell (level - 1) = some c ∧
        s.slabs[c]? = some (kmemCache pidSize upidSize level)) ∧
      ∀ t i failed, s.pidCache.pc t = .done i none failed → failed = true := by
  obtain ⟨s, hrun, h, -⟩ := run_filled (filled_init maxPidNsLevel pidSize upidSize) as
  obtain ⟨s', hrun', -, hmono⟩ := run_filled h bs
  refine ⟨s, s', hrun, hrun', fun i c => hmono, fun i j => h.below, h.nodup_names,
    fun level c hc => ?_,
    fun t i failed hpc => ?_⟩
  · obtain ⟨i, rfl, hcell⟩ := h.made hc
    obtain ⟨hlt, hslab⟩ := h.slab hcell
    exact ⟨Nat.succ_pos i, hlt, hcell, hslab⟩
  · have hholds := h.guarded.holds t
    rwa [hpc] at hholds

/-- Two tasks look for the cache of level 1 before it is there. Only the first one makes it. -/
example : (run (PidCache.step 32 100 16) (Caches.init : Caches Bool)
    [.enter true 0, .enter false 0, .step true true, .step false true, .step true true,
      .step false true, .step true true, .step true true, .step true true, .step false true,
      .step false true, .step false true, .step false true,
      .leave false]).map (fun s => (s.made, s.slabs)) = .ok ([(1, 0)], [⟨2, 116⟩]) := rfl

end KernelPid.PidCache
