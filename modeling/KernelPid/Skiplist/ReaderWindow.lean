import KernelPid.Skiplist.ReaderRuns

/-!
# When the reader's second look is safe

Between a reader's last look at `x->forward[0]` in its loops and the second one behind them, the
only thing a writer can do to break the loop's exit test is to link in a new node that becomes the
last one below the key. A writer that does not is one that the readers are correct beside
(`readers_correct`).
-/

namespace KernelPid.PidSkiplist

open Runs Tower

variable {α : Type} {s s' : PidSkiplist α} {h x : Addr} {key : ℤ} {L L' : List Addr}
  {V : Addr → Prop} {op : WriteOp α} {r : Reader} {pc pc' : ReaderPc α}

/-- The reader is between its last look at `x->forward[0]` in its loops, which showed no key below
the one sought, and the second one behind them. -/
def Looked (s : PidSkiplist α) (key : ℤ) : ReaderPc α → Prop
  | .readForward 0 _ => True
  | .readKey 0 _ next => key ≤ s.key next
  | _ => False

instance decidableLooked (s : PidSkiplist α) (key : ℤ) : ∀ pc, Decidable (Looked s key pc)
  | .readForward 0 _ => instDecidableTrue
  | .readKey 0 _ next => inferInstanceAs (Decidable (key ≤ s.key next))
  | .readForward (_ + 1) _ | .readKey (_ + 1) _ _ | .readHeader | .readLevel _ | .checkKey _
  | .readPid _ | .done _ _ => instDecidableFalse

/-- The call links in a new node, which becomes the last one below `key`. -/
def Disturbs (s : PidSkiplist α) (key : ℤ) : WriteOp α → Prop
  | .insert k _ env => env.ok = true ∧ k < key ∧ ∀ p ∈ s.nodes.tail, s.key p < key → s.key p < k
  | .remove _ => False

instance decidableDisturbs (s : PidSkiplist α) (key : ℤ) : ∀ op, Decidable (Disturbs s key op)
  | .insert k _ env => inferInstanceAs (Decidable (env.ok = true ∧ k < key ∧
      ∀ p ∈ s.nodes.tail, s.key p < key → s.key p < k))
  | .remove _ => instDecidableFalse

/-- No call of the writer disturbs a reader that has looked. -/
def Undisturbed (key : ℤ) (st : Scene α) : Act α → Prop
  | .read => True
  | .write op => Looked st.list key st.pc → ¬ Disturbs st.list key op

instance decidableUndisturbed (key : ℤ) (st : Scene α) : ∀ a, Decidable (Undisturbed key st a)
  | .read => instDecidableTrue
  | .write op => inferInstanceAs (Decidable (Looked st.list key st.pc → ¬ Disturbs st.list key op))

/-! ## The window -/

/-- No key below the one sought behind `x`. -/
def Quiet (s : PidSkiplist α) (key : ℤ) (x : Addr) : Prop :=
  ∀ z, s.fwd x 0 = some z → key ≤ s.key z

/-- Once the reader has looked, there is no key below the one sought behind its node. -/
def WindowInv (s : PidSkiplist α) (key : ℤ) : ReaderPc α → Prop
  | .readForward 0 x => Quiet s key x
  | .readKey 0 x next => key ≤ s.key next → Quiet s key x
  | _ => True

/-- A quiet node in the list is the last one below the key. -/
theorem Quiet.last (hs : Inv s h L) (hx : x ∈ h :: L) (hq : Quiet s key x) {p : Addr} (hp : p ∈ L)
    (hlt : s.key p < key) : x ≠ h ∧ s.key p ≤ s.key x := by
  by_contra hnot
  have hxp : x = h ∨ s.key x < s.key p := by
    by_cases hxh : x = h
    · exact Or.inl hxh
    · exact Or.inr (Int.not_le.mp fun hle => hnot ⟨hxh, hle⟩)
  obtain ⟨z, hz, hle⟩ := hs.fwd_zero_le hx hp hxp
  have hkey := hq z hz
  omega

/-- Only a call that links in a node as the last one below the key can bring a smaller key behind
the reader's node. -/
theorem Quiet.write (hv : Visible s h L V) (hinv' : Inv s' h L') (hk : Kept op s s' h L L')
    (hx : OnPath s h V key x) (hd : ¬ Disturbs s key op) (hq : Quiet s key x) :
    Quiet s' key x := by
  intro z hz
  have hxalloc := hx.alloc hv
  by_cases hxL' : x ∈ h :: L'
  · have hxL : x ∈ h :: L := by
      rcases List.mem_cons.mp hxL' with rfl | hxL'
      · simp
      · exact List.mem_cons_of_mem _ (hk.mem_of_mem hxalloc hxL')
    have hxi : 0 < s'.ht x := by rw [hk.ht x hxalloc]; exact hxalloc
    obtain ⟨hzL', -, hlt⟩ := hinv'.fwd_live hxL' hxi hz
    have hxz : x = h ∨ s.key x < s'.key z := by
      rcases List.mem_cons.mp hxL' with rfl | hxL'
      · exact Or.inl rfl
      · exact Or.inr (by rw [← hk.key x hxalloc]; exact hlt hxL')
    by_cases hzL : z ∈ L
    · rw [hk.key z (hv.inv.ht_pos z hzL)] at hxz ⊢
      obtain ⟨w, hw, hle⟩ := hv.inv.fwd_zero_le hxL hzL hxz
      exact le_trans (hq w hw) hle
    · -- a new node: the call is an insertion, and it does not disturb
      obtain ⟨-, k, v, env, rfl, hkey, henv, -⟩ := hk.fresh z hzL' hzL
      rw [hkey] at hxz ⊢
      by_contra hlt
      refine hd ⟨henv, Int.not_le.mp hlt, fun p hp hpkey => ?_⟩
      rw [hv.inv.nodes_eq, List.tail_cons] at hp
      obtain ⟨hne, hle⟩ := hq.last hv.inv hxL hp hpkey
      exact lt_of_le_of_lt hle (hxz.resolve_left hne)
  · rw [hk.fwd x hxalloc hxL'] at hz
    have hzV : V z := (hx.fwd hv hxalloc hz).1
    rw [hk.key z (hv.alloc z hzV)]
    exact hq z hz

/-- A call that disturbs does bring a smaller key behind the reader's node, as long as that is
in the list. -/
theorem Disturbs.not_quiet {retval : Option ℤ} (hs : Inv s h L) (hd : Disturbs s key op)
    (hw : s.write op = .ok (s', retval)) (hx : x ∈ h :: L) (hlt : x = h ∨ s.key x < key) :
    ¬ Quiet s' key x := by
  cases op with
  | remove k => exact hd.elim
  | insert k v env =>
      obtain ⟨henv, hkey, hlast⟩ := hd
      rw [hs.nodes_eq, List.tail_cons] at hlast
      have hnew : ∀ p ∈ L, s.key p ≠ k := by
        rintro p hp rfl
        exact lt_irrefl _ (hlast p hp hkey)
      obtain ⟨s₁, hs₁, hinv₁, hadded⟩ := hs.insert_absent hnew henv v
      simp only [PidSkiplist.write, hs₁, ok_bind, Except.ok.injEq, Prod.mk.injEq] at hw
      obtain ⟨rfl, -⟩ := hw
      have hsplit := below_append_above s k L
      have hne : x ≠ s.brk := Nat.ne_of_lt (hs.lt_brk x (hs.ht_pos' x hx))
      have hx' : x ∈ h :: (below s k L ++ s.brk :: above s k L) := by
        rw [← hsplit] at hx
        simp only [List.mem_cons, List.mem_append] at hx ⊢
        tauto
      have hxk : x = h ∨ s₁.key x < s₁.key s.brk := by
        by_cases hxh : x = h
        · exact Or.inl hxh
        · right
          rw [hadded.key, hadded.key, if_neg hne, if_pos rfl]
          exact hlast x ((List.mem_cons.mp hx).resolve_left hxh) (hlt.resolve_left hxh)
      obtain ⟨z, hz, hle⟩ := hinv₁.fwd_zero_le hx' (by simp) hxk
      intro hq
      have hqz := hq z hz
      rw [hadded.key s.brk, if_pos rfl] at hle
      omega

/-- A writer call that does not disturb. -/
theorem WindowInv.write (hv : Visible s h L V) (hinv' : Inv s' h L') (hk : Kept op s s' h L L')
    (hpc : PcInv s h V key pc) (hd : Looked s key pc → ¬ Disturbs s key op)
    (hw : WindowInv s key pc) : WindowInv s' key pc := by
  cases pc with
  | readForward i x =>
      cases i with
      | zero => exact Quiet.write hv hinv' hk hpc.1 (hd trivial) hw
      | succ i => trivial
  | readKey i x next =>
      cases i with
      | zero =>
          intro hle
          rw [hk.key next (hv.alloc next hpc.2.2.1)] at hle
          exact Quiet.write hv hinv' hk hpc.1 (hd hle) (hw hle)
      | succ i => trivial
  | _ => trivial

/-- The reader enters the window by looking. -/
theorem WindowInv.read (hv : Visible s h L V) (hpc : PcInv s h V key pc)
    (hw : WindowInv s key pc) (hstep : readerStep r key s pc = .ok pc') : WindowInv s key pc' := by
  cases hpc.readStep hv hstep with
  | level =>
      -- the loop over the levels takes at least one round
      obtain ⟨l, hl⟩ : ∃ l, s.level = l + 1 := ⟨s.level - 1, by have := hv.inv.level_pos; omega⟩
      rw [hl]
      trivial
  | @down i x hfwd =>
      cases i with
      | zero =>
          intro y hy
          simp [hfwd] at hy
      | succ i => trivial
  | @look i x y hfwd =>
      cases i with
      | zero =>
          intro hle w hw
          obtain rfl : y = w := Option.some.inj (hfwd.symm.trans hw)
          exact hle
      | succ i => trivial
  | @stay i x y hle =>
      cases i with
      | zero => exact hw hle
      | succ i => trivial
  | done => exact hw
  | _ => trivial

/-- Inside the window the exit test of the loops still holds. -/
theorem WindowInv.stillOver (hw : WindowInv s key pc) (a : Act α) : StillOver key ⟨s, pc⟩ a := by
  cases a with
  | write op => trivial
  | read =>
      cases pc with
      | readForward i x =>
          cases i with
          | zero => exact fun y hy => hw y hy
          | succ i => trivial
      | _ => trivial

/-- The invariant of the scene with the window. -/
def InWindow (key : ℤ) (st : Scene α) : Prop :=
  ∃ h L V, Visible st.list h L V ∧ PcInv st.list h V key st.pc ∧ WindowInv st.list key st.pc

/-- A writer that does not disturb leaves the exit test of the reader's loops as it is. -/
theorem stillOver_of_undisturbed (r : Reader) (key : ℤ) (pre : List (WriteOp α))
    (acts : List (Act α)) (hd : Meets (sceneStep r key) (Undisturbed key) (startScene pre) acts) :
    Meets (sceneStep r key) (StillOver key) (startScene pre) acts := by
  obtain ⟨L, hs, -⟩ := inv_listAfter pre
  have hstart : InWindow key (startScene pre) :=
    ⟨0, L, (· ∈ L), hs.visible, trivial, trivial⟩
  refine Meets.imp_of_invariant (fun st a hst hda => ?_) hstart hd
  obtain ⟨h, L, V, hv, hpc, hw⟩ := hst
  refine ⟨hw.stillOver a, fun st' hst' => ?_⟩
  cases a with
  | read =>
      obtain ⟨pc', hread, hpc', -⟩ := hpc.read r hv (hw.stillOver .read)
      simp only [sceneStep, hread, ok_bind, Except.ok.injEq] at hst'
      subst hst'
      exact ⟨h, L, V, hv, hpc', hw.read hv hpc hread⟩
  | write op =>
      obtain ⟨s', retval, L', hs', hv', hk⟩ := hv.write op
      simp only [sceneStep, hs', ok_bind, Except.ok.injEq] at hst'
      subst hst'
      exact ⟨h, L', _, hv', hpc.write hv hk, hw.write hv hv'.inv hk hpc hda⟩

/-! ## The readers beside such a writer -/

/-- The readers are correct beside a writer that links in no new last node below the key between a
reader's last look and its second one. -/
theorem readers_correct (r : Reader) (key : ℤ) (pre : List (WriteOp α)) (acts : List (Act α))
    (hd : Meets (sceneStep r key) (Undisturbed key) (startScene pre) acts) :
    ReaderCorrect r key pre acts :=
  readerCorrect_of_stillOver r key pre acts (stillOver_of_undisturbed r key pre acts hd)

/-- A node of level 1. -/
def lowEnv : NodeEnv where
  draw := pidSlRandomLevel 1
  kzalloc := true
  kcalloc := true

/-- A node of level 2. -/
def highEnv : NodeEnv where
  draw := pidSlRandomLevel 16
  kzalloc := true
  kcalloc := true

/-- The condition allows insertions on both sides of the key: on the reader's way in front of the
key, and between its two looks elsewhere. Its node may be taken out between them. -/
theorem readers_correct_beside_insert :
    ReaderCorrect .lookupRcu 5 [.insert 3 (some 30) lowEnv, .insert 5 (some 50) highEnv]
      [.read, .read, .write (.insert 4 (some 40) highEnv), .read, .read, .read, .read, .read,
        .write (.insert 2 (some 20) lowEnv), .write (.insert 7 (some 70) highEnv), .read,
        .write (.remove 4), .read, .read, .read] ∧
    ReaderCorrect .findGeRcu 4 [.insert 3 (some 30) highEnv, .insert 5 (some 50) lowEnv]
      [.read, .read, .read, .read, .read, .read, .write (.insert 1 (some 10) lowEnv), .read,
        .write (.insert 6 (some 60) lowEnv), .write (.remove 3), .read, .read] ∧
    ReaderCorrect .iterNextRcu 4 [.insert 3 (some 30) lowEnv, .insert 5 (some 50) highEnv]
      [.read, .read, .read, .read, .read, .read, .read, .write (.insert 2 (some 20) highEnv),
        .write (.insert 4 (some 40) lowEnv), .read, .read, .read, .read] :=
  ⟨readers_correct _ _ _ _ (by decide), readers_correct _ _ _ _ (by decide),
    readers_correct _ _ _ _ (by decide)⟩

/-- An insertion of key 3 while the reader for key 5 is between its last look and its second one:
all three readers go wrong. -/
theorem second_look_sees_new_node :
    ¬ ReaderCorrect .lookupRcu 5 [.insert 5 (some 50) lowEnv]
      [.read, .read, .read, .read, .write (.insert 3 (some 30) lowEnv), .read, .read] ∧
    ¬ ReaderCorrect .findGeRcu 5 [.insert 5 (some 50) lowEnv]
      [.read, .read, .read, .read, .write (.insert 3 (some 30) lowEnv), .read, .read] ∧
    ¬ ReaderCorrect .iterNextRcu 5 [.insert 5 (some 50) lowEnv]
      [.read, .read, .read, .read, .write (.insert 3 (some 30) lowEnv), .read, .read] := by
  refine ⟨?_, ?_, ?_⟩
  · rintro ⟨st, hrun, hret, -⟩
    have hpc : Except.ok (ReaderPc.done none none) = Except.ok st.pc :=
      Eq.trans (by decide) (congrArg (Except.map Scene.pc) hrun)
    exact absurd (hret 50 (by decide) none none (Except.ok.inj hpc).symm) (by decide)
  · rintro ⟨st, hrun, hret, -⟩
    have hpc : Except.ok (ReaderPc.done (some 2) (some 30), (3 : ℤ)) =
        Except.ok (st.pc, st.list.key 2) :=
      Eq.trans (by decide) (congrArg (Except.map fun st => (st.pc, st.list.key 2)) hrun)
    obtain ⟨hdone, hkey⟩ := Prod.mk.inj (Except.ok.inj hpc)
    have hle := hret 2 (some 30) hdone.symm
    omega
  · rintro ⟨st, hrun, hret, -⟩
    have hpc : Except.ok (ReaderPc.done none none) = Except.ok st.pc :=
      Eq.trans (by decide) (congrArg (Except.map Scene.pc) hrun)
    exact absurd rfl (hret 5 (by decide) (by decide) none none (Except.ok.inj hpc).symm)

end KernelPid.PidSkiplist
