import KernelPid.Skiplist.Invariant
import Mathlib.Data.List.TakeWhile

/-!
# The search of the plain skip list

`walk_eq` and `descend_eq` compute the search for any split `h :: A ++ B` of the list. The search
may start at any node of `h :: A` that is tall enough, the header being one of them; if the keys
behind the start are below the key sought up to the end of `A`, and those of `B` are not, it ends at
the last node of `A` on every level. The keys of `A` and of `B` need no order among themselves.
-/

namespace KernelPid.PidSkiplist

open Runs Tower

variable {α : Type} {s : PidSkiplist α} {h x : Addr} {k : ℤ} {i n : ℕ} {L A B : List Addr}

/-- Following level `i` from `x`, with `A` and then `B` ahead, ends at the last node of `A`. -/
theorem walk_eq (hA : ∀ a ∈ A, s.key a < k) (hB : ∀ b ∈ B, k ≤ s.key b)
    (hlink : Linked s.fwd s.ht (A ++ B)) (hx : s.fwd x i = nextAt s.ht i (A ++ B))
    (hxi : i < s.ht x) {fuel : ℕ} (hfuel : A.length < fuel) :
    s.walk k i fuel x = .ok (lastAt s.ht i x A) := by
  induction A generalizing x fuel with
  | nil =>
      obtain ⟨f, rfl⟩ : ∃ f, fuel = f + 1 := ⟨fuel - 1, by simp at hfuel; omega⟩
      simp only [walk, forward_eq hxi, ok_bind, hx, List.nil_append, lastAt_nil]
      cases hb : nextAt s.ht i B with
      | none => rfl
      | some b =>
          have hbpos : 0 < s.ht b := Nat.zero_lt_of_lt (lt_of_nextAt hb)
          have hkey : ¬ s.key b < k := Int.not_lt.mpr (hB b (mem_of_nextAt hb))
          simp only [deref_eq hbpos, ok_bind, if_neg hkey]
  | cons a A ih =>
      have hlink' : Linked s.fwd s.ht (A ++ B) := hlink.suffix (A := [a])
      have hA' : ∀ b ∈ A, s.key b < k := fun b hb => hA b (by simp [hb])
      by_cases ha : i < s.ht a
      · obtain ⟨f, rfl⟩ : ∃ f, fuel = f + 1 := ⟨fuel - 1, by simp at hfuel; omega⟩
        have hnext : s.fwd x i = some a := by rw [hx, List.cons_append, nextAt_cons_of_lt ha]
        have hkey : s.key a < k := hA a (by simp)
        simp only [walk, forward_eq hxi, ok_bind, hnext, deref_eq (Nat.zero_lt_of_lt ha),
          if_pos hkey, lastAt_cons_of_lt ha]
        exact ih hA' hlink' (hlink.fwd_head ha) ha (by simp at hfuel; omega)
      · have hle : s.ht a ≤ i := Nat.not_lt.mp ha
        rw [lastAt_cons_of_le hle]
        refine ih hA' hlink' ?_ hxi (by simp at hfuel; omega)
        rw [hx, List.cons_append, nextAt_cons_of_le hle]

/-- The search through the lowest `n` levels, from any node of `h :: A` taller than them with only
smaller keys behind it: each level ends at the last node of `h :: A` that is taller than it. -/
theorem descend_eq (hB : ∀ b ∈ B, k ≤ s.key b) (hlink : Linked s.fwd s.ht (h :: A ++ B))
    (hfuel : A.length < s.brk) {P Q : List Addr} (hsplit : h :: A = P ++ x :: Q)
    (hQ : ∀ a ∈ Q, s.key a < k) (hx : n ≤ s.ht x) (update : ℕ → Option Addr) :
    s.descend k n x update =
      .ok (if n = 0 then x else lastAt s.ht 0 h A,
        fun j => if j < n then some (lastAt s.ht j h A) else update j) := by
  induction n generalizing x P Q update with
  | zero => simp [descend]
  | succ n ih =>
      have hlen : Q.length ≤ A.length := by
        have hl := congrArg List.length hsplit
        simp only [List.length_cons, List.length_append] at hl
        omega
      have hlink₂ : Linked s.fwd s.ht (x :: (Q ++ B)) := by
        refine Linked.suffix (A := P) ?_
        rw [show P ++ x :: (Q ++ B) = h :: A ++ B by rw [hsplit]; simp]
        exact hlink
      have hlast : lastAt s.ht n x Q = lastAt s.ht n h A := (lastAt_of_split hsplit hx).symm
      have hwalk : s.walk k n s.brk x = .ok (lastAt s.ht n h A) := by
        rw [walk_eq hQ hB (hlink₂.suffix (A := [x])) (hlink₂.fwd_head hx) hx (by omega), hlast]
      have hy : n < s.ht (lastAt s.ht n h A) := by
        rw [← hlast]
        exact lt_ht_lastAt hx Q
      -- the next level starts from there, with what is left of `Q` behind it
      obtain ⟨C, D, hCD, -⟩ := lastAt_split s.ht n x Q
      rw [hlast] at hCD
      have hsplit' : h :: A = (P ++ C) ++ lastAt s.ht n h A :: D := by
        rw [hsplit, hCD, List.append_assoc]
      have hD : ∀ a ∈ D, s.key a < k := fun a ha => hQ a (mem_of_split hCD ha)
      simp only [descend, hwalk, ok_bind, ih hsplit' hD (Nat.le_of_lt hy)]
      refine congrArg Except.ok (Prod.ext ?_ ?_)
      · by_cases hn : n = 0 <;> simp [hn]
      · funext j
        by_cases hj : j < n
        · simp [hj, Nat.lt_succ_of_lt hj]
        · by_cases hjn : j = n
          · subst hjn; simp
          · simp [hj, hjn, show ¬ j < n + 1 by omega]

/-! ## The list split at a key -/

/-- The nodes with a key below `k`. -/
def below (s : PidSkiplist α) (k : ℤ) (L : List Addr) : List Addr :=
  L.takeWhile fun p => s.key p < k

/-- The nodes from the first one with a key not below `k` on. -/
def above (s : PidSkiplist α) (k : ℤ) (L : List Addr) : List Addr :=
  L.dropWhile fun p => s.key p < k

theorem below_append_above (s : PidSkiplist α) (k : ℤ) (L : List Addr) :
    below s k L ++ above s k L = L :=
  List.takeWhile_append_dropWhile

theorem key_lt_of_mem_below {p : Addr} (hp : p ∈ below s k L) : s.key p < k := by
  simpa using List.mem_takeWhile_imp hp

theorem le_key_of_mem_above (hL : L.Pairwise fun p q => s.key p < s.key q) {p : Addr}
    (hp : p ∈ above s k L) : k ≤ s.key p := by
  induction L with
  | nil => simp [above] at hp
  | cons a L ih =>
      obtain ⟨ha, hL⟩ := List.pairwise_cons.mp hL
      by_cases hak : s.key a < k
      · refine ih hL ?_
        simpa [above, hak] using hp
      · have hp : p = a ∨ p ∈ L := by simpa [above, hak] using hp
        rcases hp with rfl | hp
        · omega
        · have := ha p hp
          omega

theorem mem_of_mem_below {p : Addr} (hp : p ∈ below s k L) : p ∈ L :=
  List.takeWhile_sublist _ |>.subset hp

theorem mem_of_mem_above {p : Addr} (hp : p ∈ above s k L) : p ∈ L :=
  List.dropWhile_sublist _ |>.subset hp

theorem above_sorted (s : PidSkiplist α) (k : ℤ) (hL : L.Pairwise fun p q => s.key p < s.key q) :
    (above s k L).Pairwise fun p q => s.key p < s.key q :=
  hL.sublist (List.dropWhile_sublist _)

/-- A node of the list is at or above `k` exactly when its key is. -/
theorem mem_above_iff (hL : L.Pairwise fun p q => s.key p < s.key q) {p : Addr} :
    p ∈ above s k L ↔ p ∈ L ∧ k ≤ s.key p := by
  refine ⟨fun hp => ⟨mem_of_mem_above hp, le_key_of_mem_above hL hp⟩, fun ⟨hp, hk⟩ => ?_⟩
  rw [← below_append_above s k L] at hp
  rcases List.mem_append.mp hp with hp | hp
  · exact absurd (key_lt_of_mem_below hp) (Int.not_lt.mpr hk)
  · exact hp

theorem mem_below_iff (hL : L.Pairwise fun p q => s.key p < s.key q) {p : Addr} :
    p ∈ below s k L ↔ p ∈ L ∧ s.key p < k := by
  refine ⟨fun hp => ⟨mem_of_mem_below hp, key_lt_of_mem_below hp⟩, fun ⟨hp, hk⟩ => ?_⟩
  rw [← below_append_above s k L] at hp
  rcases List.mem_append.mp hp with hp | hp
  · exact hp
  · exact absurd hk (Int.not_lt.mpr (le_key_of_mem_above hL hp))

/-- The node with key `k`, if there is one, is the first one not below `k`. -/
theorem head?_above (hL : L.Pairwise fun p q => s.key p < s.key q) {p : Addr} (hp : p ∈ L) :
    (above s (s.key p) L).head? = some p := by
  have habove : above s (s.key p) L ⊆ L := fun q hq => mem_of_mem_above hq
  have hmem : p ∈ above s (s.key p) L := (mem_above_iff hL).mpr ⟨hp, Int.le_refl _⟩
  have hsorted := above_sorted s (s.key p) hL
  cases hab : above s (s.key p) L with
  | nil => simp [hab] at hmem
  | cons a B =>
      rw [hab] at hmem hsorted
      rcases List.mem_cons.mp hmem with rfl | hB
      · rfl
      · have hlt := (List.pairwise_cons.mp hsorted).1 p hB
        have hle : s.key p ≤ s.key a := le_key_of_mem_above hL (by rw [hab]; simp)
        omega

/-- The node with the key splits the list. -/
theorem split_at_mem (hL : L.Pairwise fun p q => s.key p < s.key q) {p : Addr} (hp : p ∈ L) :
    ∃ B, L = below s (s.key p) L ++ p :: B := by
  have hhead := head?_above hL hp
  cases hab : above s (s.key p) L with
  | nil => simp [hab] at hhead
  | cons a B =>
      rw [hab, List.head?_cons] at hhead
      refine ⟨B, ?_⟩
      rw [← Option.some.inj hhead, ← hab, Option.some.inj hhead, below_append_above]

/-! ## Where the search of a list ends -/

/-- What the search for `k` finds: the last node below `k` on every level of the list. -/
theorem Inv.descend_header (hs : Inv s h L) (k : ℤ) (update : ℕ → Option Addr) :
    s.descend k s.level h update =
      .ok (lastAt s.ht 0 h (below s k L),
        fun j => if j < s.level then some (lastAt s.ht j h (below s k L)) else update j) := by
  have hlen : (below s k L).length < s.brk :=
    lt_of_le_of_lt (List.takeWhile_sublist _).length_le hs.length_lt_brk
  have hlink : Linked s.fwd s.ht (h :: below s k L ++ above s k L) := by
    rw [List.cons_append, below_append_above]; exact hs.linked
  rw [descend_eq (fun b hb => le_key_of_mem_above hs.sorted hb) hlink hlen (P := []) rfl
    (fun a ha => key_lt_of_mem_below ha) hs.level_le_header,
    if_neg (Nat.pos_iff_ne_zero.mp hs.level_pos)]

/-- The search may as well start at any node below `k` that reaches the top level of the list. -/
theorem Inv.descend_below (hs : Inv s h L) (hx : x ∈ h :: below s k L) (hxlevel : s.level ≤ s.ht x)
    (update : ℕ → Option Addr) : s.descend k s.level x update = s.descend k s.level h update := by
  have hlen : (below s k L).length < s.brk :=
    lt_of_le_of_lt (List.takeWhile_sublist _).length_le hs.length_lt_brk
  have hlink : Linked s.fwd s.ht (h :: below s k L ++ above s k L) := by
    rw [List.cons_append, below_append_above]; exact hs.linked
  obtain ⟨P, Q, hsplit⟩ := List.append_of_mem hx
  have hQ : ∀ a ∈ Q, s.key a < k := fun a ha => key_lt_of_mem_below (mem_of_split hsplit ha)
  rw [hs.descend_header, descend_eq (fun b hb => le_key_of_mem_above hs.sorted hb)
    hlink hlen hsplit hQ
    hxlevel, if_neg (Nat.pos_iff_ne_zero.mp hs.level_pos)]

/-- One such node is the last one of the top level. -/
theorem Inv.descend_top (hs : Inv s h L) (k : ℤ) (update : ℕ → Option Addr) :
    s.descend k s.level (lastAt s.ht (pidSlMaxLevel - 1) h (below s k L)) update =
      s.descend k s.level h update := by
  have htop : pidSlMaxLevel - 1 < s.ht h := by rw [hs.header_ht]; decide
  have hx := lt_ht_lastAt htop (below s k L)
  apply hs.descend_below (lastAt_mem h (below s k L))
  exact le_trans hs.level_le (Nat.le_of_pred_lt hx)

/-- The search for `k` ends in front of the first node not below `k`. -/
theorem Inv.forward_below (hs : Inv s h L) (k : ℤ) :
    s.forward (lastAt s.ht 0 h (below s k L)) 0 = .ok (above s k L).head? := by
  have hlink : Linked s.fwd s.ht (h :: below s k L ++ above s k L) := by
    rw [List.cons_append, below_append_above]; exact hs.linked
  rw [forward_eq (lt_ht_lastAt hs.header_pos _), hlink.fwd_lastAt hs.header_pos,
    nextAt_eq_head? fun b hb => hs.ht_pos b (mem_of_mem_above hb)]

/-- The node found is the one with key `k`, if the list has one. -/
theorem Inv.matchKey_above (hs : Inv s h L) (k : ℤ) :
    s.matchKey k (above s k L).head? = .ok (L.find? fun p => s.key p = k) := by
  cases hf : L.find? fun p => s.key p = k with
  | some p =>
      have hp : p ∈ L := List.mem_of_find?_eq_some hf
      have hk : s.key p = k := by simpa using List.find?_some hf
      subst hk
      simp only [head?_above hs.sorted hp, matchKey, deref_eq (hs.ht_pos p hp), ok_bind, if_true]
  | none =>
      cases hab : (above s k L).head? with
      | none => rfl
      | some a =>
          have ha : a ∈ L := mem_of_mem_above (List.mem_of_mem_head? hab)
          have hne : ¬ s.key a = k := by simpa using List.find?_eq_none.mp hf a ha
          simp only [matchKey, deref_eq (hs.ht_pos a ha), ok_bind, if_neg hne]

/-! ## The readers -/

/-- `pid_skiplist_lookup_rcu` returns the value of the node with the key. -/
theorem Inv.lookupRcu_eq (hs : Inv s h L) (k : ℤ) :
    s.lookupRcu k = .ok ((L.find? fun p => s.key p = k).bind s.pid) := by
  simp only [lookupRcu, hs.header, hs.descend_header, ok_bind, hs.forward_below, hs.matchKey_above]
  cases hf : L.find? fun p => s.key p = k with
  | none => rfl
  | some p =>
      have hp : p ∈ L := List.mem_of_find?_eq_some hf
      simp only [deref_eq (hs.ht_pos p hp), ok_bind, Option.bind_some]

/-- `pid_skiplist_find_ge_rcu` returns the value of the first node not below the key. -/
theorem Inv.findGeRcu_eq (hs : Inv s h L) (k : ℤ) :
    s.findGeRcu k = .ok ((above s k L).head?.bind s.pid) := by
  simp only [findGeRcu, hs.getHeader, hs.descend_header, ok_bind, hs.forward_below]
  cases hab : (above s k L).head? with
  | none => rfl
  | some a =>
      have ha : a ∈ L := mem_of_mem_above (List.mem_of_mem_head? hab)
      simp only [deref_eq (hs.ht_pos a ha), ok_bind, Option.bind_some]

/-- The first call of `pid_skiplist_iter_next_rcu` moves the cursor to the first node not below
the start key. -/
theorem Inv.iterNextRcu_none (hs : Inv s h L) (k : ℤ) :
    s.iterNextRcu none k = .ok ((above s k L).head?, (above s k L).head?.bind s.pid) := by
  simp only [iterNextRcu, hs.header, hs.descend_header, ok_bind, hs.forward_below]
  cases hab : (above s k L).head? with
  | none => rfl
  | some a =>
      have ha' : a ∈ above s k L := List.mem_of_mem_head? hab
      have ha : a ∈ L := mem_of_mem_above ha'
      have hle : ¬ s.key a < k := Int.not_lt.mpr (le_key_of_mem_above hs.sorted ha')
      simp only [deref_eq (hs.ht_pos a ha), ok_bind, if_neg hle, Option.bind_some]

/-- A later call moves the cursor to the node behind it, and stays on the last node. -/
theorem Shape.iterNextRcu_some (hs : Shape s h (A ++ x :: B)) (k : ℤ) :
    s.iterNextRcu (some x) k =
      .ok (if B = [] then some x else B.head?, B.head?.bind s.pid) := by
  have hx : 0 < s.ht x := hs.ht_pos x (by simp)
  have hB : ∀ b ∈ B, 0 < s.ht b := fun b hb => hs.ht_pos b (by simp [hb])
  have hnext : s.fwd x 0 = B.head? := by
    rw [hs.linked (h :: A) x B rfl 0 hx, nextAt_eq_head? hB]
  simp only [iterNextRcu, hs.header, forward_eq hx, ok_bind, hnext]
  cases B with
  | nil => rfl
  | cons b B => simp [deref_eq (hB b (by simp))]

end KernelPid.PidSkiplist
