import KernelPid.Skiplist.LockFree

/-!
# Runs of a reader beside a writer

`PcInv.read` is one step of the reader: it does not fault, keeps the invariant and comes closer to
the end. `reader_returns` is what a whole call returns, for any property of values that the bindings
have throughout; the three readers are three instances of it, put together in
`readerCorrect_of_stillOver`. What a writer may do meanwhile is in `Skiplist.ReaderWindow`.
-/

namespace KernelPid.PidSkiplist

open Runs Tower

variable {α : Type} {s s' : PidSkiplist α} {h x y : Addr} {key : ℤ} {i : ℕ} {L L' : List Addr}
  {V : Addr → Prop} {op : WriteOp α} {r : Reader} {pc pc' : ReaderPc α}

/-! ## One step of the reader -/

/-- How many nodes the reader may still go through: their keys lie between that of `x` and `key`. -/
def room (s : PidSkiplist α) (key : ℤ) (x : Addr) : ℕ :=
  if s.header = some x then (key - intMin).toNat + 1 else (key - s.key x).toNat

/-- How many steps a call takes at most, when the keys are `int`s. -/
def readBound (key : ℤ) : ℕ := 2 * (key - intMin).toNat + 2 * pidSlMaxLevel + 7

/-- How many steps the reader may still take. -/
def stepsLeft (s : PidSkiplist α) (key : ℤ) : ReaderPc α → ℕ
  | .readHeader => readBound key
  | .readLevel _ => 2 * (key - intMin).toNat + 2 * pidSlMaxLevel + 6
  | .readForward i x => 2 * s.room key x + 2 * i + 3
  | .readKey i x _ => 2 * s.room key x + 2 * i + 4
  | .checkKey _ => 2
  | .readPid _ => 1
  | .done _ _ => 0

/-- Going on to `y` uses up room. -/
theorem room_lt (hv : Visible s h L V) (hx : OnPath s h V key x) (hy : V y)
    (hxy : x ≠ h → s.key x < s.key y) (hkey : s.key y < key) (hint : intMin ≤ s.key y) :
    s.room key y < s.room key x := by
  have hyh : ¬ s.header = some y := by
    rw [hv.inv.header]
    exact fun hc => hv.ne_header y hy (Option.some.inj hc).symm
  unfold room
  rw [if_neg hyh]
  by_cases hxh : x = h
  · subst hxh
    rw [if_pos hv.inv.header]
    omega
  · have hxlt := hxy hxh
    have hxh' : ¬ s.header = some x := by
      rw [hv.inv.header]
      exact fun hc => hxh (Option.some.inj hc).symm
    rw [if_neg hxh']
    omega

/-- A step of reader `r`, by what it finds in a list whose header is `h`. -/
inductive ReadStep (r : Reader) (key : ℤ) (s : PidSkiplist α) (h : Addr) :
    ReaderPc α → ReaderPc α → Prop
  | header : ReadStep r key s h .readHeader (.readLevel h)
  | level {header : Addr} : ReadStep r key s h (.readLevel header) (.readForward s.level header)
  /-- There is no node behind `x` at this level. -/
  | down {i : ℕ} {x : Addr} (hfwd : s.fwd x i = none) :
      ReadStep r key s h (.readForward (i + 1) x) (.readForward i x)
  | look {i : ℕ} {x y : Addr} (hfwd : s.fwd x i = some y) :
      ReadStep r key s h (.readForward (i + 1) x) (.readKey i x y)
  | goOn {i : ℕ} {x y : Addr} (hlt : s.key y < key) :
      ReadStep r key s h (.readKey i x y) (.readForward (i + 1) y)
  | stay {i : ℕ} {x y : Addr} (hle : key ≤ s.key y) :
      ReadStep r key s h (.readKey i x y) (.readForward i x)
  | atEnd {x : Addr} (hfwd : s.fwd x 0 = none) :
      ReadStep r key s h (.readForward 0 x) (.done none none)
  | take {x y : Addr} (hfwd : s.fwd x 0 = some y) (hr : r = .findGeRcu) :
      ReadStep r key s h (.readForward 0 x) (.readPid y)
  | check {x y : Addr} (hfwd : s.fwd x 0 = some y) (hr : r ≠ .findGeRcu) :
      ReadStep r key s h (.readForward 0 x) (.checkKey y)
  | accept {y : Addr} (hacc : r.accepts key (s.key y) = true) :
      ReadStep r key s h (.checkKey y) (.readPid y)
  | reject {y : Addr} (hacc : r.accepts key (s.key y) = false) :
      ReadStep r key s h (.checkKey y) (.done none none)
  | value {y : Addr} : ReadStep r key s h (.readPid y) (.done (some y) (s.pid y))
  | done {node : Option Addr} {ret : Option α} :
      ReadStep r key s h (.done node ret) (.done node ret)

/-- In its invariant the reader does not fault. -/
theorem PcInv.exists_readStep (r : Reader) (hv : Visible s h L V) (hpc : PcInv s h V key pc) :
    ∃ pc', readerStep r key s pc = .ok pc' ∧ ReadStep r key s h pc pc' := by
  cases pc with
  | readHeader => exact ⟨_, by simp only [readerStep, hv.inv.header], .header⟩
  | readLevel header => exact ⟨_, rfl, .level⟩
  | readForward i x =>
      obtain ⟨hx, hi⟩ := hpc
      cases i with
      | zero =>
          have hforward := forward_eq (hx.alloc hv)
          cases hfwd : s.fwd x 0 with
          | none => exact ⟨_, by simp only [readerStep, hforward, ok_bind, hfwd], .atEnd hfwd⟩
          | some y =>
              by_cases hr : r = .findGeRcu
              · exact ⟨_, by simp only [readerStep, hforward, ok_bind, hfwd, if_pos hr],
                  .take hfwd hr⟩
              · exact ⟨_, by simp only [readerStep, hforward, ok_bind, hfwd, if_neg hr],
                  .check hfwd hr⟩
      | succ i =>
          have hforward := forward_eq (show i < s.ht x from hi)
          cases hfwd : s.fwd x i with
          | none => exact ⟨_, by simp only [readerStep, hforward, ok_bind, hfwd], .down hfwd⟩
          | some y => exact ⟨_, by simp only [readerStep, hforward, ok_bind, hfwd], .look hfwd⟩
  | readKey i x next =>
      have hderef := deref_eq (hv.alloc next hpc.2.2.1)
      by_cases hkey : s.key next < key
      · exact ⟨_, by simp only [readerStep, hderef, ok_bind, if_pos hkey], .goOn hkey⟩
      · exact ⟨_, by simp only [readerStep, hderef, ok_bind, if_neg hkey],
          .stay (Int.not_lt.mp hkey)⟩
  | checkKey next =>
      have hderef := deref_eq (hv.alloc next hpc.1)
      cases hacc : r.accepts key (s.key next) with
      | true => exact ⟨_, by simp only [readerStep, hderef, ok_bind, hacc, if_true], .accept hacc⟩
      | false =>
          exact ⟨_, by simp only [readerStep, hderef, ok_bind, hacc, Bool.false_eq_true, if_false],
            .reject hacc⟩
  | readPid next =>
      have hderef := deref_eq (hv.alloc next hpc.1)
      exact ⟨_, by simp only [readerStep, hderef, ok_bind], .value⟩
  | done node ret => exact ⟨_, rfl, .done⟩

theorem PcInv.readStep (hv : Visible s h L V) (hpc : PcInv s h V key pc)
    (hstep : readerStep r key s pc = .ok pc') : ReadStep r key s h pc pc' := by
  obtain ⟨pc'', hstep', hread⟩ := hpc.exists_readStep r hv
  obtain rfl := Except.ok.inj (hstep.symm.trans hstep')
  exact hread

/-- A step keeps the invariant of the reader. -/
theorem ReadStep.pcInv (hread : ReadStep r key s h pc pc') (hv : Visible s h L V)
    (hpc : PcInv s h V key pc) (hover : StillOver key ⟨s, pc⟩ .read) : PcInv s h V key pc' := by
  cases hread with
  | header => rfl
  | level =>
      obtain rfl := hpc
      exact ⟨Or.inl rfl, hv.inv.level_le_header⟩
  | down hfwd => exact ⟨hpc.1, Nat.le_of_lt hpc.2⟩
  | look hfwd =>
      obtain ⟨hx, hi⟩ := hpc
      obtain ⟨hyV, hiy, hxy⟩ := hx.fwd hv hi hfwd
      exact ⟨hx, hi, hyV, hiy, hxy⟩
  | goOn hlt =>
      obtain ⟨-, -, hnext, hin, -⟩ := hpc
      exact ⟨Or.inr ⟨hnext, hlt⟩, hin⟩
  | stay hle => exact ⟨hpc.1, Nat.le_of_lt hpc.2.1⟩
  | atEnd hfwd => exact fun y hy => by simp at hy
  | take hfwd hr => exact ⟨(hpc.1.fwd hv (hpc.1.alloc hv) hfwd).1, hover _ hfwd⟩
  | check hfwd hr => exact ⟨(hpc.1.fwd hv (hpc.1.alloc hv) hfwd).1, hover _ hfwd⟩
  | accept hacc => exact hpc
  | reject hacc => exact fun y hy => by simp at hy
  | value =>
      intro y hy
      obtain rfl := Option.some.inj hy
      exact hpc
  | done => exact hpc

/-- A step uses up what is left. -/
theorem ReadStep.stepsLeft_le (hread : ReadStep r key s h pc pc') (hv : Visible s h L V)
    (hpc : PcInv s h V key pc) (hint : ∀ q, V q → intMin ≤ s.key q) :
    s.stepsLeft key pc' ≤ s.stepsLeft key pc - 1 := by
  cases hread with
  | header =>
      simp only [stepsLeft, readBound]
      omega
  | level =>
      obtain rfl := hpc
      have hle := hv.inv.level_le
      simp only [stepsLeft, room, if_pos hv.inv.header]
      omega
  | goOn hlt =>
      obtain ⟨hx, -, hnext, -, hxy⟩ := hpc
      have hroom := room_lt hv hx hnext hxy hlt (hint _ hnext)
      simp only [stepsLeft]
      omega
  | accept hacc => exact le_refl _
  | _ =>
      simp only [stepsLeft]
      omega

/-- One step of the reader. -/
theorem PcInv.read (r : Reader) (hv : Visible s h L V) (hpc : PcInv s h V key pc)
    (hover : StillOver key ⟨s, pc⟩ .read) :
    ∃ pc', readerStep r key s pc = .ok pc' ∧ PcInv s h V key pc' ∧
      ((∀ q, V q → intMin ≤ s.key q) → s.stepsLeft key pc' ≤ s.stepsLeft key pc - 1) := by
  obtain ⟨pc', hstep, hread⟩ := hpc.exists_readStep r hv
  exact ⟨pc', hstep, hread.pcInv hv hpc hover, hread.stepsLeft_le hv hpc⟩

/-! ## What the reader returns -/

/-- No visible node below the key `k` skips it at level 0. -/
def Reaches (s : PidSkiplist α) (V : Addr → Prop) (k : ℤ) : Prop :=
  ∀ q, V q → s.key q < k → ∃ y, s.fwd q 0 = some y ∧ s.key y ≤ k

/-- The node the reader has settled on has a key in `N`, and a value it returned is in `R`. -/
def RetInv (s : PidSkiplist α) (N : ℤ → Prop) (R : Option α → Prop) : ReaderPc α → Prop
  | .checkKey next | .readPid next => N (s.key next)
  | .done _ ret => R ret
  | _ => True

/-- A step of a reader that looks for a key not above the bound key `k`. -/
theorem RetInv.read {N : ℤ → Prop} {R : Option α → Prop} {k : ℤ} (hv : Visible s h L V)
    (hpc : PcInv s h V key pc) (hk : key ≤ k) (hbound : ∃ n ∈ L, s.key n = k)
    (hreach : Reaches s V k) (hN : ∀ k', key ≤ k' → k' ≤ k → N k')
    (hacc : ∀ k', key ≤ k' → N k' → r.accepts key k' = true)
    (hR : ∀ q, V q → N (s.key q) → R (s.pid q)) (hover : StillOver key ⟨s, pc⟩ .read)
    (hret : RetInv s N R pc)
    (hstep : readerStep r key s pc = .ok pc') : RetInv s N R pc' := by
  -- behind the loops there is a node, with a key between the two
  have hnext : ∀ {x}, pc = .readForward 0 x → ∃ y, s.fwd x 0 = some y ∧ N (s.key y) := by
    rintro x rfl
    obtain ⟨y, hy, hyk⟩ : ∃ y, s.fwd x 0 = some y ∧ s.key y ≤ k := by
      rcases hpc.1 with rfl | ⟨hxV, hlt⟩
      · obtain ⟨n, hn, rfl⟩ := hbound
        exact hv.inv.fwd_zero_le (by simp) hn (Or.inl rfl)
      · exact hreach x hxV (by omega)
    exact ⟨y, hy, hN _ (hover y hy) hyk⟩
  have hfound : ∀ {x y}, pc = .readForward 0 x → s.fwd x 0 = some y → N (s.key y) := by
    intro x y hx hfwd
    obtain ⟨w, hw, hNw⟩ := hnext hx
    obtain rfl := Option.some.inj (hfwd.symm.trans hw)
    exact hNw
  cases hpc.readStep hv hstep with
  | atEnd hfwd =>
      obtain ⟨y, hy, -⟩ := hnext rfl
      rw [hfwd] at hy
      simp at hy
  | take hfwd hr => exact hfound rfl hfwd
  | check hfwd hr => exact hfound rfl hfwd
  | accept hacc => exact hret
  | reject hfalse =>
      rw [hacc _ hpc.2 hret] at hfalse
      exact Bool.noConfusion hfalse
  | value => exact hR _ hpc.1 hret
  | done => exact hret
  | _ => trivial

/-- Removed nodes keep their pointers, and nodes in the list do not skip the key. -/
theorem Reaches.write {k : ℤ} (hv : Visible s h L V) (hv' : Visible s' h L' (Grow V L'))
    (hk : Kept op s s' h L L') (hbound : ∃ n ∈ L', s'.key n = k) (hreach : Reaches s V k) :
    Reaches s' (Grow V L') k := by
  intro q hq hlt
  by_cases hqL : q ∈ L'
  · obtain ⟨n, hn, rfl⟩ := hbound
    exact hv'.inv.fwd_zero_le (List.mem_cons_of_mem _ hqL) hn (Or.inr hlt)
  · have hqV : V q := hq.resolve_right hqL
    have halloc := hv.alloc q hqV
    rw [hk.key q halloc] at hlt
    obtain ⟨y, hy, hle⟩ := hreach q hqV hlt
    have hyV := (hv.fwd q 0 y hqV halloc hy).1
    refine ⟨y, ?_, by rw [hk.key y (hv.alloc y hyV)]; exact hle⟩
    rw [hk.fwd q halloc (by simp [hv.ne_header q hqV, hqL])]
    exact hy

/-- Visible nodes with a key in `N` have a value in `R`, when the bindings do. -/
theorem visible_pid_write {N : ℤ → Prop} {R : Option α → Prop} (hv : Visible s h L V)
    (hinv' : Inv s' h L') (hk : Kept op s s' h L L')
    (hbind : ∀ k v, N k → s'.bindings k = some v → R v)
    (hR : ∀ q, V q → N (s.key q) → R (s.pid q)) :
    ∀ q, Grow V L' q → N (s'.key q) → R (s'.pid q) := by
  intro q hq hN
  by_cases hqL : q ∈ L'
  · exact hbind _ _ hN (hinv'.bindings_eq_some_iff.mpr ⟨q, hqL, rfl, rfl⟩)
  · have hqV : V q := hq.resolve_right hqL
    have halloc := hv.alloc q hqV
    rw [hk.key q halloc] at hN
    rw [hk.pid q halloc (by simp [hv.ne_header q hqV, hqL])]
    exact hR q hqV hN

theorem RetInv.write {N : ℤ → Prop} {R : Option α → Prop} (hv : Visible s h L V)
    (hk : Kept op s s' h L L') (hpc : PcInv s h V key pc) (hret : RetInv s N R pc) :
    RetInv s' N R pc := by
  cases pc with
  | checkKey next =>
      rw [RetInv, hk.key next (hv.alloc next hpc.1)]
      exact hret
  | readPid next =>
      rw [RetInv, hk.key next (hv.alloc next hpc.1)]
      exact hret
  | done node ret => exact hret
  | _ => trivial

/-! ## Runs -/

/-- The invariant of the scene. -/
def SceneInv (key : ℤ) (st : Scene α) : Prop :=
  ∃ h L V, Visible st.list h L V ∧ PcInv st.list h V key st.pc

theorem SceneInv.step (r : Reader) {st : Scene α} {a : Act α} (hst : SceneInv key st)
    (hover : StillOver key st a) : ∃ st', sceneStep r key st a = .ok st' ∧ SceneInv key st' := by
  obtain ⟨h, L, V, hv, hpc⟩ := hst
  cases a with
  | read =>
      obtain ⟨pc', hread, hpc', -⟩ := hpc.read r hv hover
      exact ⟨⟨st.list, pc'⟩, by simp only [sceneStep, hread, ok_bind], h, L, V, hv, hpc'⟩
  | write op =>
      obtain ⟨s', retval, L', hs', hv', hk⟩ := hv.write op
      exact ⟨⟨s', st.pc⟩, by simp only [sceneStep, hs', ok_bind], h, L', _, hv',
        hpc.write hv hk⟩

/-- What the scene keeps while the key `k` stays bound, and the bindings of the keys in `N` in
`R`. -/
def ReturnInv (key k : ℤ) (N : ℤ → Prop) (R : Option α → Prop) (st : Scene α) : Prop :=
  ∃ h L V, Visible st.list h L V ∧ PcInv st.list h V key st.pc ∧ Reaches st.list V k ∧
    (∃ n ∈ L, st.list.key n = k) ∧ (∀ q, V q → N (st.list.key q) → R (st.list.pid q)) ∧
    RetInv st.list N R st.pc

/-- While the reader runs, `k` is bound and the bindings of the keys in `N` are in `R`. -/
def BoundIn (k : ℤ) (N : ℤ → Prop) (R : Option α → Prop) (st : Scene α) : Prop :=
  st.list.bindings k ≠ none ∧ ∀ k' v, N k' → st.list.bindings k' = some v → R v

theorem ReturnInv.step {k : ℤ} {N : ℤ → Prop} {R : Option α → Prop} (hk : key ≤ k)
    (hN : ∀ k', key ≤ k' → k' ≤ k → N k') (hacc : ∀ k', key ≤ k' → N k' → r.accepts key k' = true)
    {st : Scene α} {a : Act α} (hst : ReturnInv key k N R st) (hover : StillOver key st a) :
    ∃ st', sceneStep r key st a = .ok st' ∧ (BoundIn k N R st' → ReturnInv key k N R st') := by
  obtain ⟨h, L, V, hv, hpc, hreach, hbound, hR, hret⟩ := hst
  cases a with
  | read =>
      obtain ⟨pc', hread, hpc', -⟩ := hpc.read r hv hover
      refine ⟨⟨st.list, pc'⟩, by simp only [sceneStep, hread, ok_bind], fun _ => ?_⟩
      exact ⟨h, L, V, hv, hpc', hreach, hbound, hR,
        hret.read hv hpc hk hbound hreach hN hacc hR hover hread⟩
  | write op =>
      obtain ⟨s', retval, L', hs', hv', hkept⟩ := hv.write op
      refine ⟨⟨s', st.pc⟩, by simp only [sceneStep, hs', ok_bind], fun hbnd => ?_⟩
      obtain ⟨v, hv''⟩ := Option.ne_none_iff_exists'.mp hbnd.1
      obtain ⟨n, hn, hnk, -⟩ := hv'.inv.bindings_eq_some_iff.mp hv''
      exact ⟨h, L', _, hv', hpc.write hv hkept,
        hreach.write hv hv' hkept ⟨n, hn, hnk⟩, ⟨n, hn, hnk⟩,
        visible_pid_write hv hv'.inv hkept hbnd.2 hR, hret.write hv hkept hpc⟩

/-- A reader that looks for `key` beside a writer, while some key `k` at or above it stays bound:
what it returns has every property that the bindings of the keys it accepts have. -/
theorem reader_returns {k : ℤ} {N : ℤ → Prop} {R : Option α → Prop} (hk : key ≤ k)
    (hN : ∀ k', key ≤ k' → k' ≤ k → N k') (hacc : ∀ k', key ≤ k' → N k' → r.accepts key k' = true)
    (hs : Inv s h L) {acts : List (Act α)}
    (hbnd : Throughout (sceneStep r key) (BoundIn k N R) ⟨s, .readHeader⟩ acts)
    (hover : Meets (sceneStep r key) (StillOver key) ⟨s, .readHeader⟩ acts) :
    ∃ st, run (sceneStep r key) ⟨s, .readHeader⟩ acts = .ok st ∧
      ∀ node ret, st.pc = .done node ret → R ret := by
  have hhead := hbnd.head
  obtain ⟨v, hv⟩ := Option.ne_none_iff_exists'.mp hhead.1
  obtain ⟨n, hn, hnk, -⟩ := hs.bindings_eq_some_iff.mp hv
  have hstart : ReturnInv key k N R ⟨s, .readHeader⟩ := by
    refine ⟨h, L, (· ∈ L), hs.visible, trivial, fun q hq hlt => ?_, ⟨n, hn, hnk⟩,
      fun q hq hNq => ?_, trivial⟩
    · subst hnk
      exact hs.fwd_zero_le (List.mem_cons_of_mem _ hq) hn (Or.inr hlt)
    · exact hhead.2 _ _ hNq (hs.bindings_eq_some_iff.mpr ⟨q, hq, rfl, rfl⟩)
  obtain ⟨st, hrun, -, -, -, -, -, -, -, -, hret⟩ := run_invariant_of
    (fun st a hst _ hda => hst.step hk hN hacc hda) hstart hbnd hover
  refine ⟨st, hrun, fun node ret hdone => ?_⟩
  rw [hdone] at hret
  exact hret

/-! ## The reader ends -/

def Act.isRead : Act α → Bool
  | .read => true
  | .write _ => false

/-- A writer call does not make the reader's way longer. -/
theorem stepsLeft_write (hv : Visible s h L V) (hinv' : Inv s' h L') (hk : Kept op s s' h L L')
    (hpc : PcInv s h V key pc) : s'.stepsLeft key pc = s.stepsLeft key pc := by
  have hroom : ∀ x, OnPath s h V key x → s'.room key x = s.room key x := fun x hx => by
    unfold room
    rw [hinv'.header, hv.inv.header, hk.key x (hx.alloc hv)]
  cases pc with
  | readForward i x => simp only [stepsLeft, hroom x hpc.1]
  | readKey i x next => simp only [stepsLeft, hroom x hpc.1]
  | _ => rfl

/-- Every step of the reader takes it closer to the end. -/
theorem stepsLeft_run (r : Reader) {acts : List (Act α)} (hv : Visible s h L V)
    (hpc : PcInv s h V key pc) (hint : ∀ q, V q → intMin ≤ s.key q)
    (hops : ∀ op, .write op ∈ acts → intMin ≤ op.key)
    (hover : Meets (sceneStep r key) (StillOver key) ⟨s, pc⟩ acts) :
    ∃ st', run (sceneStep r key) ⟨s, pc⟩ acts = .ok st' ∧
      st'.list.stepsLeft key st'.pc ≤ s.stepsLeft key pc - acts.countP Act.isRead := by
  induction acts generalizing s pc L V with
  | nil => exact ⟨⟨s, pc⟩, rfl, by simp⟩
  | cons a acts ih =>
      have hrest := hover.2
      cases a with
      | read =>
          obtain ⟨pc', hread, hpc', hle⟩ := hpc.read r hv hover.1
          have hstep : sceneStep r key ⟨s, pc⟩ .read = .ok ⟨s, pc'⟩ := by
            simp only [sceneStep, hread, ok_bind]
          rw [hstep] at hrest
          obtain ⟨st', hrun, hle'⟩ := ih hv hpc' hint
            (fun op hop => hops op (List.mem_cons_of_mem _ hop)) hrest
          refine ⟨st', by simp only [run, hstep, ok_bind, hrun], ?_⟩
          have hone := hle hint
          rw [List.countP_cons_of_pos (by rfl)]
          omega
      | write op =>
          obtain ⟨s', retval, L', hs', hv', hk⟩ := hv.write op
          have hstep : sceneStep r key ⟨s, pc⟩ (.write op) = .ok ⟨s', pc⟩ := by
            simp only [sceneStep, hs', ok_bind]
          rw [hstep] at hrest
          have hint' : ∀ q, Grow V L' q → intMin ≤ s'.key q := by
            intro q hq
            by_cases hqV : V q
            · rw [hk.key q (hv.alloc q hqV)]
              exact hint q hqV
            · have hqL := hq.resolve_left hqV
              obtain ⟨-, k, v, env, rfl, hkey, -, -⟩ :=
                hk.fresh q hqL fun hc => hqV (hv.live q hc)
              rw [hkey]
              exact hops (.insert k v env) (by simp)
          obtain ⟨st', hrun, hle'⟩ := ih hv'
            (hpc.write hv hk) hint'
            (fun op hop => hops op (List.mem_cons_of_mem _ hop)) hrest
          refine ⟨st', by simp only [run, hstep, ok_bind, hrun], ?_⟩
          rw [stepsLeft_write hv hv'.inv hk hpc] at hle'
          rw [List.countP_cons_of_neg (by simp [Act.isRead])]
          exact hle'

/-! ## The three readers -/

/-- A call of a reader on the list that the writer calls `pre` made, with the writer calls in `acts`
between its steps. -/
abbrev startScene (pre : List (WriteOp α)) : Scene α := ⟨listAfter pre, .readHeader⟩

/-- What is expected of a reader that looks for `key`, beside a writer: it does not fault, and
* `pid_skiplist_lookup_rcu` returns the value that the key has throughout,
* `pid_skiplist_find_ge_rcu` returns no value of a node with a smaller key,
* the first `pid_skiplist_iter_next_rcu` finds something, if some key not below `key` has a value
  throughout and no key is bound to `NULL`;
and it returns once it has taken its steps. -/
def ReaderCorrect (r : Reader) (key : ℤ) (pre : List (WriteOp α)) (acts : List (Act α)) : Prop :=
  ∃ st, run (sceneStep r key) (startScene pre) acts = .ok st ∧
    (match r with
      | .lookupRcu => ∀ p, Throughout (sceneStep r key)
          (fun st => st.list.bindings key = some (some p)) (startScene pre) acts →
          ∀ node ret, st.pc = .done node ret → ret = some p
      | .findGeRcu => ∀ node ret, st.pc = .done (some node) ret → key ≤ st.list.key node
      | .iterNextRcu => ∀ k, key ≤ k → Throughout (sceneStep r key)
          (fun st => (st.list.bindings k).join ≠ none ∧
            ∀ x ∈ st.list.nodes.tail, st.list.pid x ≠ none) (startScene pre) acts →
          ∀ node ret, st.pc = .done node ret → ret ≠ none) ∧
    ((∀ op ∈ pre, intMin ≤ op.key) → (∀ op, .write op ∈ acts → intMin ≤ op.key) →
      readBound key ≤ acts.countP Act.isRead → ∃ node ret, st.pc = .done node ret)

/-- The readers are correct beside a writer if the test that ended their loops still holds when they
read `x->forward[0]` again. -/
theorem readerCorrect_of_stillOver (r : Reader) (key : ℤ) (pre : List (WriteOp α))
    (acts : List (Act α)) (hover : Meets (sceneStep r key) (StillOver key) (startScene pre) acts) :
    ReaderCorrect r key pre acts := by
  obtain ⟨L, hs, hint⟩ := inv_listAfter pre
  have hstart : SceneInv key (startScene pre) := ⟨0, L, (· ∈ L), hs.visible, trivial⟩
  obtain ⟨st, hrun, h, L', V, hv, hpc⟩ :=
    run_invariant (fun st a hst hda => hst.step r hda) hstart hover
  have hunique : ∀ {st'}, run (sceneStep r key) (startScene pre) acts = .ok st' → st' = st :=
    fun h' => Except.ok.inj (h'.symm.trans hrun)
  refine ⟨st, hrun, ?_, fun hpre hacts hcount => ?_⟩
  · cases r with
    | lookupRcu =>
        intro p hp node ret hdone
        have hbnd : Throughout (sceneStep .lookupRcu key) (BoundIn key (· = key) (· = some p))
            (startScene pre) acts := hp.imp fun st hst =>
          ⟨by simp [hst], fun k' v hk' hv => by
            subst hk'
            exact (Option.some.inj (hst.symm.trans hv)).symm⟩
        obtain ⟨st', hrun', hret⟩ := reader_returns (le_refl key)
          (fun k' h₁ h₂ => le_antisymm h₂ h₁) (fun k' _ hk' => by simp [Reader.accepts, hk'])
          hs hbnd hover
        exact hret node ret (hunique hrun' ▸ hdone)
    | findGeRcu =>
        intro node ret hdone
        rw [hdone] at hpc
        exact (hpc node rfl).2
    | iterNextRcu =>
        intro k hk hp node ret hdone
        have hbnd : Throughout (sceneStep .iterNextRcu key) (BoundIn k (fun _ => True) (· ≠ none))
            (startScene pre) acts := hp.imp fun st hst =>
          ⟨fun hc => hst.1 (by rw [hc]; rfl), fun k' v _ hv => bindings_ne hst.2 hv⟩
        obtain ⟨st', hrun', hret⟩ := reader_returns hk (fun _ _ _ => trivial)
          (fun k' hk' _ => by simpa [Reader.accepts] using hk') hs hbnd hover
        exact hret node ret (hunique hrun' ▸ hdone)
  · have hpcstart : PcInv (listAfter pre) 0 (· ∈ L) key .readHeader := trivial
    obtain ⟨st', hrun', hle⟩ := stepsLeft_run r hs.visible hpcstart (hint hpre) hacts hover
    obtain rfl := hunique hrun'
    have hzero : st'.list.stepsLeft key st'.pc = 0 := by
      have hstart' : (listAfter pre).stepsLeft key .readHeader = readBound key := rfl
      omega
    cases hdone : st'.pc with
    | done node ret => exact ⟨node, ret, rfl⟩
    | readHeader => simp [hdone, stepsLeft, readBound] at hzero
    | readLevel header => simp [hdone, stepsLeft] at hzero
    | readForward i x => simp [hdone, stepsLeft] at hzero
    | readKey i x next => simp [hdone, stepsLeft] at hzero
    | checkKey next => simp [hdone, stepsLeft] at hzero
    | readPid next => simp [hdone, stepsLeft] at hzero

end KernelPid.PidSkiplist
