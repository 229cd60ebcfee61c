import KernelPid.Skiplist.Reader

/-!
# Readers beside a writer

Any number of whole writer calls may run between two steps of a reader. A node that the reader can
come across was in the list at some time since the reader started: `V` in `Visible`. Such nodes
lead to each other in ascending key order for good, since a removed node is not written to anymore.

What this does not give is that the second read of `x->forward[0]`, behind the reader's loops, finds
what the first one found. `StillOver` says that the reader may go on with what it finds;
`Skiplist.ReaderWindow` says which calls of the writer see to it.
-/

namespace KernelPid.PidSkiplist

open Runs Tower

variable {α : Type} {s s' : PidSkiplist α} {h x y : Addr} {key : ℤ} {i : ℕ} {L L' : List Addr}
  {V : Addr → Prop} {op : WriteOp α} {r : Reader}

/-! ## Nodes in the list -/

/-- A pointer of a node in the list leads forward in it. -/
theorem Inv.fwd_live (hs : Inv s h L) (hx : x ∈ h :: L) (hi : i < s.ht x)
    (hy : s.fwd x i = some y) : y ∈ L ∧ i < s.ht y ∧ (x ∈ L → s.key x < s.key y) := by
  obtain ⟨A, B, hL⟩ := List.append_of_mem hx
  have hnext : nextAt s.ht i B = some y := by rw [← hs.linked A x B hL i hi, hy]
  have hyB : y ∈ B := mem_of_nextAt hnext
  refine ⟨?_, lt_of_nextAt hnext, fun hxL => ?_⟩
  · cases A with
    | nil => obtain ⟨-, rfl⟩ := List.cons.inj hL; exact hyB
    | cons a A => obtain ⟨-, rfl⟩ := List.cons.inj hL; simp [hyB]
  · cases A with
    | nil =>
        obtain ⟨rfl, -⟩ := List.cons.inj hL
        exact absurd hxL (List.nodup_cons.mp hs.nodup).1
    | cons a A =>
        obtain ⟨-, rfl⟩ := List.cons.inj hL
        exact (List.pairwise_cons.mp (List.pairwise_append.mp hs.sorted).2.1).1 y hyB

/-- The level-0 pointer of a node in the list does not skip any node behind it. -/
theorem Inv.fwd_zero_le (hs : Inv s h L) (hx : x ∈ h :: L) (hy : y ∈ L)
    (hxy : x = h ∨ s.key x < s.key y) : ∃ z, s.fwd x 0 = some z ∧ s.key z ≤ s.key y := by
  obtain ⟨A, B, hL⟩ := List.append_of_mem hx
  have hyB : y ∈ B := by
    cases A with
    | nil => obtain ⟨-, rfl⟩ := List.cons.inj hL; exact hy
    | cons a A =>
        obtain ⟨rfl, rfl⟩ := List.cons.inj hL
        have hne : x ≠ h := fun hc => (List.nodup_cons.mp hs.nodup).1 (by rw [← hc]; simp)
        have hlt : s.key x < s.key y := hxy.resolve_left hne
        obtain ⟨-, -, hAx⟩ := List.pairwise_append.mp hs.sorted
        rcases List.mem_append.mp hy with hyA | hyB
        · have hgt := hAx y hyA x (by simp)
          omega
        · rcases List.mem_cons.mp hyB with rfl | hyB
          · omega
          · exact hyB
  have hB : ∀ b ∈ B, 0 < s.ht b := fun b hb => hs.ht_pos' b (by rw [hL]; simp [hb])
  have hnext : s.fwd x 0 = B.head? := by
    rw [hs.linked A x B hL 0 (hs.ht_pos' x hx), nextAt_eq_head? hB]
  cases B with
  | nil => simp at hyB
  | cons b B =>
      refine ⟨b, hnext, ?_⟩
      rcases List.mem_cons.mp hyB with rfl | hyB
      · exact le_refl _
      · cases A with
        | nil =>
            obtain ⟨-, rfl⟩ := List.cons.inj hL
            exact le_of_lt ((List.pairwise_cons.mp hs.sorted).1 y hyB)
        | cons a A =>
            obtain ⟨-, rfl⟩ := List.cons.inj hL
            have hsorted := (List.pairwise_append.mp hs.sorted).2.1
            exact le_of_lt ((List.pairwise_cons.mp (List.pairwise_cons.mp hsorted).2).1 y hyB)

/-! ## Nodes a reader can come across -/

/-- `V` holds of the nodes in the list and of nodes taken out of it, and is closed under following
their pointers. -/
structure Visible (s : PidSkiplist α) (h : Addr) (L : List Addr) (V : Addr → Prop) : Prop where
  inv : Inv s h L
  live : ∀ p ∈ L, V p
  alloc : ∀ q, V q → 0 < s.ht q
  ne_header : ∀ q, V q → q ≠ h
  fwd : ∀ q i y, V q → i < s.ht q → s.fwd q i = some y → V y ∧ i < s.ht y ∧ s.key q < s.key y

theorem Inv.visible (hs : Inv s h L) : Visible s h L (· ∈ L) where
  inv := hs
  live _ hp := hp
  alloc := hs.ht_pos
  ne_header q hq hc := (List.nodup_cons.mp hs.nodup).1 (hc ▸ hq)
  fwd q i y hq hi hy := by
    obtain ⟨hyL, hiy, hlt⟩ := hs.fwd_live (List.mem_cons_of_mem _ hq) hi hy
    exact ⟨hyL, hiy, hlt hq⟩

/-- Pointers of the header lead to visible nodes as well. -/
theorem Visible.fwd_header (hv : Visible s h L V) (hi : i < s.ht h) (hy : s.fwd h i = some y) :
    V y ∧ i < s.ht y := by
  obtain ⟨hyL, hiy, -⟩ := hv.inv.fwd_live (by simp) hi hy
  exact ⟨hv.live y hyL, hiy⟩

/-- A cursor on a visible node can be moved. -/
theorem Visible.iterNextRcu (hv : Visible s h L V) (hx : V x) (key : ℤ) :
    ∃ c ret, s.iterNextRcu (some x) key = .ok (c, ret) ∧
      (s.fwd x 0 = none → c = some x) ∧ ∀ y, s.fwd x 0 = some y → c = some y := by
  have hpos := hv.alloc x hx
  cases hnext : s.fwd x 0 with
  | none =>
      refine ⟨some x, none, ?_, fun _ => rfl, fun y hy => by simp at hy⟩
      simp only [PidSkiplist.iterNextRcu, hv.inv.header, forward_eq hpos, ok_bind, hnext]
  | some y =>
      obtain ⟨hy, -, -⟩ := hv.fwd x 0 y hx hpos hnext
      refine ⟨some y, s.pid y, ?_, fun hnone => by simp at hnone, fun z hz => hz⟩
      simp only [PidSkiplist.iterNextRcu, hv.inv.header, forward_eq hpos, ok_bind, hnext,
        deref_eq (hv.alloc y hy)]

/-- The nodes visible after a writer call. -/
abbrev Grow (V : Addr → Prop) (L' : List Addr) : Addr → Prop := fun q => V q ∨ q ∈ L'

/-- A node already visible is in the list after a call only if it was before. -/
theorem Kept.mem_of_mem (hk : Kept op s s' h L L') {q : Addr} (hq : 0 < s.ht q) (hqL : q ∈ L') :
    q ∈ L := by
  by_contra hnot
  have hzero := (hk.fresh q hqL hnot).1
  omega

/-- One writer call. -/
theorem Visible.write (hv : Visible s h L V) (op : WriteOp α) :
    ∃ s' retval L', s.write op = .ok (s', retval) ∧ Visible s' h L' (Grow V L') ∧
      Kept op s s' h L L' := by
  obtain ⟨s', retval, L', hs', hinv', hk⟩ := hv.inv.write_kept op
  refine ⟨s', retval, L', hs', ⟨hinv', fun p hp => Or.inr hp, fun q hq => ?_, fun q hq => ?_,
    fun q i y hq hi hy => ?_⟩, hk⟩
  · rcases hq with hq | hq
    · rw [hk.ht q (hv.alloc q hq)]
      exact hv.alloc q hq
    · exact hinv'.ht_pos q hq
  · rcases hq with hq | hq
    · exact hv.ne_header q hq
    · exact fun hc => (List.nodup_cons.mp hinv'.nodup).1 (hc ▸ hq)
  · by_cases hqL : q ∈ L'
    · obtain ⟨hyL, hiy, hlt⟩ := hinv'.fwd_live (List.mem_cons_of_mem _ hqL) hi hy
      exact ⟨Or.inr hyL, hiy, hlt hqL⟩
    · -- a removed node: its fields are those it had before the call
      have hqV : V q := hq.resolve_right hqL
      have halloc := hv.alloc q hqV
      rw [hk.ht q halloc] at hi
      rw [hk.fwd q halloc (by simp [hv.ne_header q hqV, hqL])] at hy
      obtain ⟨hyV, hiy, hlt⟩ := hv.fwd q i y hqV hi hy
      rw [hk.ht y (hv.alloc y hyV), hk.key q halloc, hk.key y (hv.alloc y hyV)]
      exact ⟨Or.inl hyV, hiy, hlt⟩

/-! ## The scene -/

/-- A step of the reader, or a whole call of the writer. -/
inductive Act (α : Type)
  | read
  | write (op : WriteOp α)

/-- The list, and where the reader stands. -/
structure Scene (α : Type) where
  list : PidSkiplist α
  pc : ReaderPc α

/-- Reader `r` looking for `key` beside a writer. -/
def sceneStep (r : Reader) (key : ℤ) (st : Scene α) : Act α → Except Fault (Scene α)
  | .read => do
    let pc ← readerStep r key st.list st.pc
    .ok { st with pc }
  | .write op => do
    let (list, _) ← st.list.write op
    .ok { st with list }

/-- When the reader reads `x->forward[0]` again behind its loops, the test that ended them still
holds: there is no node, or one with a key not below the one sought. -/
def StillOver (key : ℤ) (st : Scene α) : Act α → Prop
  | .read =>
    match st.pc with
    | .readForward 0 x => ∀ y ∈ st.list.fwd x 0, key ≤ st.list.key y
    | _ => True
  | .write _ => True

/-! ## Where the reader can be -/

/-- The reader's node: the header, or a visible node below the key. -/
def OnPath (s : PidSkiplist α) (h : Addr) (V : Addr → Prop) (key : ℤ) (x : Addr) : Prop :=
  x = h ∨ V x ∧ s.key x < key

/-- The invariant of a reader. -/
def PcInv (s : PidSkiplist α) (h : Addr) (V : Addr → Prop) (key : ℤ) : ReaderPc α → Prop
  | .readHeader => True
  | .readLevel header => header = h
  | .readForward i x => OnPath s h V key x ∧ i ≤ s.ht x
  | .readKey i x next => OnPath s h V key x ∧ i < s.ht x ∧ V next ∧ i < s.ht next ∧
      (x ≠ h → s.key x < s.key next)
  | .checkKey next => V next ∧ key ≤ s.key next
  | .readPid next => V next ∧ key ≤ s.key next
  | .done node _ => ∀ y, node = some y → V y ∧ key ≤ s.key y

theorem OnPath.alloc (hv : Visible s h L V) (hx : OnPath s h V key x) : 0 < s.ht x := by
  rcases hx with rfl | ⟨hx, -⟩
  · exact hv.inv.header_pos
  · exact hv.alloc x hx

theorem OnPath.write (hv : Visible s h L V) (hk : Kept op s s' h L L') (hx : OnPath s h V key x) :
    OnPath s' h (Grow V L') key x := by
  rcases hx with rfl | ⟨hx, hlt⟩
  · exact Or.inl rfl
  · exact Or.inr ⟨Or.inl hx, by rw [hk.key x (hv.alloc x hx)]; exact hlt⟩

/-- A pointer of the reader's node leads to a visible node. -/
theorem OnPath.fwd (hv : Visible s h L V) (hx : OnPath s h V key x) (hi : i < s.ht x)
    (hy : s.fwd x i = some y) : V y ∧ i < s.ht y ∧ (x ≠ h → s.key x < s.key y) := by
  rcases hx with rfl | ⟨hx, -⟩
  · obtain ⟨hyV, hiy⟩ := hv.fwd_header hi hy
    exact ⟨hyV, hiy, fun hne => absurd rfl hne⟩
  · obtain ⟨hyV, hiy, hlt⟩ := hv.fwd x i y hx hi hy
    exact ⟨hyV, hiy, fun _ => hlt⟩

/-- A writer call keeps the reader's invariant. -/
theorem PcInv.write (hv : Visible s h L V) (hk : Kept op s s' h L L') {pc : ReaderPc α}
    (hpc : PcInv s h V key pc) : PcInv s' h (Grow V L') key pc := by
  have hnode : ∀ z, V z → key ≤ s.key z → Grow V L' z ∧ key ≤ s'.key z := fun z hz hle =>
    ⟨Or.inl hz, by rw [hk.key z (hv.alloc z hz)]; exact hle⟩
  cases pc with
  | readHeader => trivial
  | readLevel header => exact hpc
  | readForward i x =>
      obtain ⟨hx, hi⟩ := hpc
      exact ⟨hx.write hv hk, by rw [hk.ht x (hx.alloc hv)]; exact hi⟩
  | readKey i x next =>
      obtain ⟨hx, hi, hnext, hin, hlt⟩ := hpc
      have hnextalloc := hv.alloc next hnext
      rw [PcInv, hk.ht x (hx.alloc hv), hk.ht next hnextalloc, hk.key x (hx.alloc hv),
        hk.key next hnextalloc]
      exact ⟨hx.write hv hk, hi, Or.inl hnext, hin, hlt⟩
  | checkKey next => exact hnode next hpc.1 hpc.2
  | readPid next => exact hnode next hpc.1 hpc.2
  | done node ret => exact fun y hy => hnode y (hpc y hy).1 (hpc y hy).2

end KernelPid.PidSkiplist
