import KernelPid.Skiplist.LockFree

/-!
# The chains of the plain skip list

`levelChain` follows the forward pointers of one level from the header. In every list that writer
calls make of an initialised one the level-0 chain ascends in its keys, and each other chain is what
the level-0 chain has of the nodes that reach the level (`WellFormed`). No call on such a list reads
anything that it must not, and all its loops end (`Safe`); that holds of a cursor on a node that was
taken out, too.
-/

namespace KernelPid.PidSkiplist

open Runs Tower

variable {α : Type} {s s' : PidSkiplist α} {h x : Addr} {i : ℕ} {L : List Addr} {V : Addr → Prop}

/-- The level-`i` chain from `x` on. -/
def levelFrom (s : PidSkiplist α) (i : ℕ) : ℕ → Option Addr → Except Fault (List Addr)
  | 0, _ => .error .diverge
  | _ + 1, none => .ok []
  | fuel + 1, some x => do
    let next ← s.forward x i
    let xs ← s.levelFrom i fuel next
    .ok (x :: xs)

/-- The nodes that follow the header on level `i`. -/
def levelChain (s : PidSkiplist α) (i : ℕ) : Except Fault (List Addr) := do
  let header ← s.getHeader
  let x ← s.forward header i
  s.levelFrom i (s.brk + 1) x

/-- `s` is a skip list: the level-0 chain ascends, each chain consists of the nodes that reach its
level, and no pointer of the header is set from `sl->level` up. -/
structure WellFormed (s : PidSkiplist α) : Prop where
  level : 1 ≤ s.level ∧ s.level ≤ pidSlMaxLevel
  chains : ∃ L, s.levelChain 0 = .ok L ∧ (L.Pairwise fun x y => s.key x < s.key y) ∧
    ∀ i < pidSlMaxLevel, s.levelChain i = .ok (L.filter fun x => i < s.ht x)
  header : ∃ h, s.header = some h ∧ ∀ i, s.level ≤ i → i < pidSlMaxLevel → s.forward h i = .ok none

/-- Every call returns, without a fault on the way. -/
structure Safe (s : PidSkiplist α) : Prop where
  insert : ∀ key pid env, ∃ r, s.insert key pid env = .ok r
  remove : ∀ key, ∃ r, s.remove key = .ok r
  lookupRcu : ∀ key, ∃ r, s.lookupRcu key = .ok r
  findGeRcu : ∀ key, ∃ r, s.findGeRcu key = .ok r
  iterNextRcu : ∀ key, ∃ r, s.iterNextRcu none key = .ok r

/-! ## The chains -/

/-- The level-`i` chain from any place of the list has the nodes of the rest that reach
the level. -/
theorem Shape.levelFrom_eq (hs : Shape s h L) {A B : List Addr} (hL : h :: L = A ++ B) {fuel : ℕ}
    (hfuel : B.length < fuel) :
    s.levelFrom i fuel (nextAt s.ht i B) = .ok (B.filter fun x => i < s.ht x) := by
  induction B generalizing A fuel with
  | nil =>
      obtain ⟨f, rfl⟩ : ∃ f, fuel = f + 1 := ⟨fuel - 1, by omega⟩
      rfl
  | cons x B ih =>
      have hrest : ∀ f, B.length < f →
          s.levelFrom i f (nextAt s.ht i B) = .ok (B.filter fun x => i < s.ht x) := by
        intro f hf
        apply ih (A := A ++ [x]) _ hf
        rw [hL, List.append_assoc, List.singleton_append]
      rw [List.length_cons] at hfuel
      by_cases hx : i < s.ht x
      · obtain ⟨f, rfl⟩ : ∃ f, fuel = f + 1 := ⟨fuel - 1, by omega⟩
        have hnext : s.fwd x i = nextAt s.ht i B := hs.linked A x B hL i hx
        rw [nextAt_cons_of_lt hx, List.filter_cons_of_pos (by simpa using hx)]
        simp only [levelFrom, forward_eq hx, ok_bind, hnext, hrest f (by omega)]
      · rw [nextAt_cons_of_le (Nat.not_lt.mp hx), List.filter_cons_of_neg (by simpa using hx)]
        exact hrest fuel (by omega)

theorem Shape.levelChain_eq (hs : Shape s h L) (hi : i < pidSlMaxLevel) :
    s.levelChain i = .ok (L.filter fun x => i < s.ht x) := by
  have hih : i < s.ht h := by rwa [hs.header_ht]
  have hchain := hs.levelFrom_eq (i := i) (A := [h]) (B := L) rfl
    (Nat.lt_succ_of_lt hs.length_lt_brk)
  simp only [levelChain, hs.getHeader, ok_bind, forward_eq hih, hs.linked.fwd_head hih, hchain]

/-- Every node is on the level-0 chain. -/
theorem Shape.levelChain_zero (hs : Shape s h L) : s.levelChain 0 = .ok L := by
  rw [hs.levelChain_eq (by decide)]
  refine congrArg Except.ok (List.filter_eq_self.mpr fun x hx => ?_)
  exact decide_eq_true (hs.ht_pos x hx)

theorem Inv.wellFormed (hs : Inv s h L) : WellFormed s where
  level := ⟨hs.level_pos, hs.level_le⟩
  chains := ⟨L, hs.levelChain_zero, hs.sorted, fun _ hi => hs.levelChain_eq hi⟩
  header := by
    refine ⟨h, hs.header, fun i hi hmax => ?_⟩
    have hih : i < s.ht h := by rwa [hs.header_ht]
    rw [forward_eq hih, hs.fwd_header_eq_none hi hih]

/-! ## The calls -/

theorem Inv.safe (hs : Inv s h L) : Safe s where
  insert key pid env := by
    obtain ⟨s', r, -, hw, -⟩ := hs.write_kept (.insert key pid env)
    cases hins : s.insert key pid env with
    | ok r => exact ⟨r, rfl⟩
    | error e => simp [write, hins] at hw
  remove key := by
    obtain ⟨s', r, -, hw, -⟩ := hs.write_kept (.remove key)
    cases hrem : s.remove key with
    | ok r => exact ⟨r, rfl⟩
    | error e => simp [write, hrem] at hw
  lookupRcu key := ⟨_, hs.lookupRcu_eq key⟩
  findGeRcu key := ⟨_, hs.findGeRcu_eq key⟩
  iterNextRcu key := ⟨_, hs.iterNextRcu_none key⟩

/-- Visible nodes stay visible along a run of writer calls. -/
theorem Visible.write_run (hv : Visible s h L V) (ops : List (WriteOp α)) :
    ∃ s' retvals L' V', runOut PidSkiplist.write s ops = .ok (s', retvals) ∧ Visible s' h L' V' ∧
      ∀ q, V q → V' q := by
  induction ops generalizing s L V with
  | nil => exact ⟨s, [], L, V, rfl, hv, fun _ hq => hq⟩
  | cons op ops ih =>
      obtain ⟨s₁, retval, L₁, hs₁, hv₁, -⟩ := hv.write op
      obtain ⟨s', retvals, L', V', hrun, hv', hgrow⟩ := ih hv₁
      refine ⟨s', retval :: retvals, L', V', ?_, hv', fun q hq => hgrow q (Or.inl hq)⟩
      simp only [runOut, hs₁, ok_bind, hrun]

/-- After any sequence of `pid_skiplist_insert` and `pid_skiplist_remove` calls on an initialised
list it is well formed, and every call on it is safe, that with a cursor on a node of the list also
after any later calls. -/
theorem representation_invariant (ops : List (WriteOp α)) :
    ∃ (s : PidSkiplist α) (retvals : List (Option ℤ)),
      runOut PidSkiplist.write init ops = .ok (s, retvals) ∧ WellFormed s ∧ Safe s ∧
      ∀ x ∈ s.nodes.tail, ∀ later : List (WriteOp α), ∃ s' retvals',
        runOut PidSkiplist.write s later = .ok (s', retvals') ∧
        ∀ key, ∃ r, s'.iterNextRcu (some x) key = .ok r := by
  obtain ⟨s, retvals, L, hrun, hinv, -⟩ := inv_init.write_run ops
  refine ⟨s, retvals, hrun, hinv.wellFormed, hinv.safe, fun x hx later => ?_⟩
  rw [hinv.nodes_eq, List.tail_cons] at hx
  obtain ⟨s', retvals', L', V', hlater, hv', hgrow⟩ := hinv.visible.write_run later
  refine ⟨s', retvals', hlater, fun key => ?_⟩
  obtain ⟨c, ret, hiter, -⟩ := hv'.iterNextRcu (hgrow x hx) key
  exact ⟨(c, ret), hiter⟩

end KernelPid.PidSkiplist
