import KernelPid.RbSkiplist.Invariant

/-!
# The two lists side by side

The same calls are made on a fresh RB skip list and on a fresh plain one, each with its own level
draws and with memory for every node. As long as no call is about a key that the tree has, the lists
represent the same map, so they answer alike (`same_answers`). A call about a key of the tree starts
behind its node and misses it.
-/

namespace KernelPid

open Runs PidSkiplist PidRbSkiplist SearchTree

variable {α : Type}

/-- A call on a list; `iterNextRcu` is the call with a `NULL` cursor. -/
inductive ListOp (α : Type)
  | insert (key : ℤ) (pid : Option α)
  | remove (key : ℤ)
  | lookupRcu (key : ℤ)
  | findGeRcu (key : ℤ)
  | iterNextRcu (startKey : ℤ)
deriving DecidableEq

/-- The key a call is about. -/
def ListOp.key : ListOp α → ℤ
  | .insert key _ | .remove key | .lookupRcu key | .findGeRcu key | .iterNextRcu key => key

/-- What a call returns: a status, nothing, or a `struct pid` pointer. -/
inductive Answer (α : Type)
  | status (retval : ℤ)
  | void
  | pid (p : Option α)
deriving DecidableEq

/-- A node is made with the level `draw`; the kernel has the memory for it. -/
def NodeEnv.granted (draw : SlLevel) : NodeEnv where
  draw := draw
  kzalloc := true
  kcalloc := true

/-- One call on the plain list. -/
def PidSkiplist.call (s : PidSkiplist α) (draw : SlLevel) :
    ListOp α → Except Fault (PidSkiplist α × Answer α)
  | .insert key pid => do
    let (s, retval) ← s.insert key pid (.granted draw)
    .ok (s, .status retval)
  | .remove key => do
    let s ← s.remove key
    .ok (s, .void)
  | .lookupRcu key => do
    let p ← s.lookupRcu key
    .ok (s, .pid p)
  | .findGeRcu key => do
    let p ← s.findGeRcu key
    .ok (s, .pid p)
  | .iterNextRcu startKey => do
    let (_, p) ← s.iterNextRcu none startKey
    .ok (s, .pid p)

/-- One call on the RB list. -/
def PidRbSkiplist.call (rb : KernelRbtree) (s : PidRbSkiplist α) (draw : SlLevel) :
    ListOp α → Except Fault (PidRbSkiplist α × Answer α)
  | .insert key pid => do
    let (s, retval) ← s.insert rb key pid (.granted draw)
    .ok (s, .status retval)
  | .remove key => do
    let s ← s.remove rb key
    .ok (s, .void)
  | .lookupRcu key => do
    let p ← s.lookupRcu key
    .ok (s, .pid p)
  | .findGeRcu key => do
    let p ← s.findGeRcu key
    .ok (s, .pid p)
  | .iterNextRcu startKey => do
    let (_, p) ← s.iterNextRcu none startKey
    .ok (s, .pid p)

/-- A call made on both lists, and the level each one draws should it make a node. -/
structure Twin (α : Type) where
  op : ListOp α
  rbDraw : SlLevel
  draw : SlLevel

/-- The call as the RB list takes it. -/
def rbStep (rb : KernelRbtree) (s : PidRbSkiplist α) (c : Twin α) :
    Except Fault (PidRbSkiplist α × Answer α) :=
  s.call rb c.rbDraw c.op

/-- The call as the plain list takes it. -/
def plainStep (s : PidSkiplist α) (c : Twin α) : Except Fault (PidSkiplist α × Answer α) :=
  s.call c.draw c.op

/-- Every call returns the same from both lists. -/
def SameAnswers (rb : KernelRbtree) (cs : List (Twin α)) : Prop :=
  ∃ (s : PidRbSkiplist α) (t : PidSkiplist α) (as : List (Answer α)),
    runOut (rbStep rb) PidRbSkiplist.init cs = .ok (s, as) ∧
    runOut plainStep PidSkiplist.init cs = .ok (t, as)

/-! ## The answers depend on the map alone -/

/-- What a call does to the map. -/
def ListOp.after (m : Bindings α) : ListOp α → Bindings α
  | .insert key pid => Function.update m key (some pid)
  | .remove key => Function.update m key none
  | .lookupRcu _ | .findGeRcu _ | .iterNextRcu _ => m

variable {m : Bindings α}

/-- Lists that represent the same map find the same value at or above a key. -/
theorem PidSkiplist.Represents.findGeRcu_congr {s t : PidSkiplist α} (hs : Represents s m)
    (ht : Represents t m) (k : ℤ) : ∃ p, s.findGeRcu k = .ok p ∧ t.findGeRcu k = .ok p := by
  rcases hs.findGeRcu_cases k with ⟨k', v, hleast, hv, hfind⟩ | ⟨hnone, hfind⟩
  · exact ⟨v, hfind, ht.findGeRcu_of_isLeast hleast hv⟩
  · exact ⟨none, hfind, ht.findGeRcu_of_none hnone⟩

/-- The first call of an iteration returns what `pid_skiplist_find_ge_rcu` returns. -/
theorem PidSkiplist.Represents.iterNextRcu_none {s : PidSkiplist α} (hs : Represents s m) {k : ℤ}
    {p : Option α} (hp : s.findGeRcu k = .ok p) : ∃ c, s.iterNextRcu none k = .ok (c, p) := by
  obtain ⟨h, L, hs, -⟩ := hs
  rw [hs.findGeRcu_eq] at hp
  exact ⟨_, by rw [hs.iterNextRcu_none, Except.ok.inj hp]⟩

/-- An insertion that gets its memory binds the key. -/
theorem PidSkiplist.Represents.insert_granted {s : PidSkiplist α} (hs : Represents s m) (k : ℤ)
    (v : Option α) (draw : SlLevel) :
    ∃ s', s.insert k v (.granted draw) = .ok (s', 0) ∧
      Represents s' (Function.update m k (some v)) := by
  by_cases hk : m k = none
  · exact hs.insert_new hk rfl v
  · exact hs.insert_bound hk v _

/-- The same call on two lists that represent the same map is answered alike. -/
theorem PidSkiplist.Represents.call_congr {s t : PidSkiplist α} (hs : Represents s m)
    (ht : Represents t m) (op : ListOp α) (d d' : SlLevel) :
    ∃ s' t' a, s.call d op = .ok (s', a) ∧ t.call d' op = .ok (t', a) ∧
      Represents s' (op.after m) ∧ Represents t' (op.after m) := by
  cases op with
  | insert k v =>
      obtain ⟨s', hs', hms⟩ := hs.insert_granted k v d
      obtain ⟨t', ht', hmt⟩ := ht.insert_granted k v d'
      exact ⟨s', t', .status 0, by simp [PidSkiplist.call, hs'], by simp [PidSkiplist.call, ht'],
        hms, hmt⟩
  | remove k =>
      obtain ⟨s', hs', hms⟩ := hs.remove k
      obtain ⟨t', ht', hmt⟩ := ht.remove k
      exact ⟨s', t', .void, by simp [PidSkiplist.call, hs'], by simp [PidSkiplist.call, ht'],
        hms, hmt⟩
  | lookupRcu k =>
      exact ⟨s, t, .pid (m k).join, by simp [PidSkiplist.call, hs.lookupRcu],
        by simp [PidSkiplist.call, ht.lookupRcu], hs, ht⟩
  | findGeRcu k =>
      obtain ⟨p, hp, hp'⟩ := hs.findGeRcu_congr ht k
      exact ⟨s, t, .pid p, by simp [PidSkiplist.call, hp], by simp [PidSkiplist.call, hp'], hs, ht⟩
  | iterNextRcu k =>
      obtain ⟨p, hp, hp'⟩ := hs.findGeRcu_congr ht k
      obtain ⟨c, hc⟩ := hs.iterNextRcu_none hp
      obtain ⟨c', hc'⟩ := ht.iterNextRcu_none hp'
      exact ⟨s, t, .pid p, by simp [PidSkiplist.call, hc], by simp [PidSkiplist.call, hc'], hs, ht⟩

/-! ## The RB list under the condition -/

/-- A call about a key the tree does not have does to the RB list what it does to the plain one. -/
theorem PidRbSkiplist.RbInv.call_eq {s : PidRbSkiplist α} {h : Addr} {L : List Addr}
    (rb : KernelRbtree) (hs : RbInv s h L) (op : ListOp α) (hk : TreeAvoids s op.key)
    (d : SlLevel) :
    ∃ s' a L', s.call rb d op = .ok (s', a) ∧
      s.toPidSkiplist.call d op = .ok (s'.toPidSkiplist, a) ∧ RbInv s' h L' := by
  cases op with
  | insert k v =>
      have hk : TreeAvoids s k := hk
      obtain ⟨s', r, L', hins, hplain, hinv, -⟩ := hs.insert_eq rb hk v (.granted d)
      exact ⟨s', .status r, L', by simp [PidRbSkiplist.call, hins],
        by simp [PidSkiplist.call, hplain], hinv⟩
  | remove k =>
      have hk : TreeAvoids s k := hk
      obtain ⟨s', L', hrem, hplain, hinv, -⟩ := hs.remove_eq rb hk
      exact ⟨s', .void, L', by simp [PidRbSkiplist.call, hrem],
        by simp [PidSkiplist.call, hplain], hinv⟩
  | lookupRcu k =>
      obtain ⟨p, hp⟩ : ∃ p, s.toPidSkiplist.lookupRcu k = .ok p := ⟨_, hs.toInv.lookupRcu_eq k⟩
      have hk : TreeAvoids s k := hk
      exact ⟨s, .pid p, L, by simp only [PidRbSkiplist.call, hs.lookupRcu_eq hk, hp, ok_bind],
        by simp only [PidSkiplist.call, hp, ok_bind], hs⟩
  | findGeRcu k =>
      obtain ⟨p, hp⟩ : ∃ p, s.toPidSkiplist.findGeRcu k = .ok p := ⟨_, hs.toInv.findGeRcu_eq k⟩
      have hk : TreeAvoids s k := hk
      exact ⟨s, .pid p, L, by simp only [PidRbSkiplist.call, hs.findGeRcu_eq hk, hp, ok_bind],
        by simp only [PidSkiplist.call, hp, ok_bind], hs⟩
  | iterNextRcu k =>
      obtain ⟨c, p, hp⟩ : ∃ c p, s.toPidSkiplist.iterNextRcu none k = .ok (c, p) :=
        ⟨_, _, hs.toInv.iterNextRcu_none k⟩
      have hk : TreeAvoids s k := hk
      exact ⟨s, .pid p, L, by simp only [PidRbSkiplist.call, hs.iterNextRcu_none hk, hp, ok_bind],
        by simp only [PidSkiplist.call, hp, ok_bind], hs⟩

/-- The two lists represent the same map. -/
def Alike (s : PidRbSkiplist α) (t : PidSkiplist α) : Prop :=
  (∃ h L, RbInv s h L) ∧ ∃ m, Represents s.toPidSkiplist m ∧ Represents t m

theorem alike_init : Alike (PidRbSkiplist.init : PidRbSkiplist α) PidSkiplist.init :=
  ⟨⟨0, [], rbInv_init⟩, fun _ => none, represents_init, represents_init⟩

/-- One call, on a key that the tree does not have. -/
theorem Alike.step (rb : KernelRbtree) {s : PidRbSkiplist α} {t : PidSkiplist α}
    (hst : Alike s t) (c : Twin α) (hk : TreeAvoids s c.op.key) :
    ∃ s' t' a, rbStep rb s c = .ok (s', a) ∧ plainStep t c = .ok (t', a) ∧ Alike s' t' := by
  obtain ⟨⟨h, L, hs⟩, m, hms, hmt⟩ := hst
  obtain ⟨s', a, L', hrb, hplain, hinv⟩ := hs.call_eq rb c.op hk c.rbDraw
  obtain ⟨sl, t', a', hsl, ht', hms', hmt'⟩ := hms.call_congr hmt c.op c.rbDraw c.draw
  rw [hplain] at hsl
  obtain ⟨rfl, rfl⟩ := Prod.mk.inj (Except.ok.inj hsl)
  exact ⟨s', t', a, hrb, ht', ⟨h, L', hinv⟩, _, hms', hmt'⟩

/-- As long as no call is about a key that a node of the tree has, the RB list and the plain list
answer alike, whatever the levels drawn in each. -/
theorem same_answers (rb : KernelRbtree) (cs : List (Twin α))
    (hcs : MeetsOut (rbStep rb) (fun s c => TreeAvoids s c.op.key) PidRbSkiplist.init cs) :
    SameAnswers rb cs := by
  obtain ⟨s, t, as, hs, ht, -⟩ := runOut_eq
    (fun s t c hst hk => hst.step rb c hk) alike_init hcs
  exact ⟨s, t, as, hs, ht⟩

/-- The condition allows top-level nodes, and calls about their neighbours. -/
theorem same_answers_beside_top_level :
    SameAnswers .flat [
      ⟨.insert 5 (some 50), pidSlRandomLevel 0, pidSlRandomLevel 1⟩,
      ⟨.insert 7 (some 70), pidSlRandomLevel 1, pidSlRandomLevel 1⟩,
      ⟨.lookupRcu 7, pidSlRandomLevel 1, pidSlRandomLevel 1⟩,
      ⟨.findGeRcu 6, pidSlRandomLevel 1, pidSlRandomLevel 1⟩] :=
  same_answers _ _ (by decide)

/-- A key whose node is in the tree is not found: the search starts at that very node. -/
theorem top_level_key_lost :
    ¬ ∀ (rb : KernelRbtree) (cs : List (Twin ℕ)), SameAnswers rb cs := by
  intro hall
  obtain ⟨s, t, as, hs, ht⟩ := hall .flat [
    ⟨.insert 5 (some 50), pidSlRandomLevel 0, pidSlRandomLevel 0⟩,
    ⟨.lookupRcu 5, pidSlRandomLevel 0, pidSlRandomLevel 0⟩]
  have has := (congrArg (Except.map Prod.snd) hs).trans (congrArg (Except.map Prod.snd) ht).symm
  exact absurd has (by decide)

end KernelPid
