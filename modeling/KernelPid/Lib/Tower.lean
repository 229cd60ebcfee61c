import Mathlib.Data.List.Basic
import Mathlib.Data.List.Nodup
import Mathlib.Tactic.Common

/-!
# Towers of linked lists

A tower is one list of nodes in which node `p` carries `ht p` forward pointers: pointer `i` of a
node leads to the next node of the list that is taller than `i`. Level `i` of the tower is thus the
sublist of the nodes taller than `i`, and level `0` is the whole list when every height is positive.

`Linked fwd ht L` says that the pointers `fwd` form the tower of `L`. Nothing here speaks of keys:
`Linked.splice` and `Linked.unsplice` put one node into a tower and take one out, for any position.
-/

namespace Tower

variable {ν : Type*} {ht : ν → ℕ} {i : ℕ}

/-- The first node of `B` taller than `i`. -/
def nextAt (ht : ν → ℕ) (i : ℕ) (B : List ν) : Option ν :=
  B.find? fun q => i < ht q

/-- The last node of `A` taller than `i`, or `x` when `A` has none. -/
def lastAt (ht : ν → ℕ) (i : ℕ) : ν → List ν → ν
  | x, [] => x
  | x, a :: A => lastAt ht i (if i < ht a then a else x) A

/-- The pointers `fwd` form the tower of `L`. -/
def Linked (fwd : ν → ℕ → Option ν) (ht : ν → ℕ) (L : List ν) : Prop :=
  ∀ A p B, L = A ++ p :: B → ∀ i < ht p, fwd p i = nextAt ht i B

/-! ## The next node of a level -/

@[simp] theorem nextAt_nil : nextAt ht i ([] : List ν) = none := rfl

theorem nextAt_cons_of_lt {a : ν} (h : i < ht a) (B : List ν) :
    nextAt ht i (a :: B) = some a := by
  simp [nextAt, h]

theorem nextAt_cons_of_le {a : ν} (h : ht a ≤ i) (B : List ν) :
    nextAt ht i (a :: B) = nextAt ht i B := by
  simp [nextAt, Nat.not_lt.mpr h]

theorem nextAt_eq_none_iff {B : List ν} : nextAt ht i B = none ↔ ∀ b ∈ B, ht b ≤ i := by
  simp [nextAt]

/-- Nodes not taller than `i` in front do not change what comes next at level `i`. -/
theorem nextAt_append_of_le {A : List ν} (h : ∀ a ∈ A, ht a ≤ i) (B : List ν) :
    nextAt ht i (A ++ B) = nextAt ht i B := by
  have hA : A.find? (fun q => decide (i < ht q)) = none := nextAt_eq_none_iff.mpr h
  simp [nextAt, List.find?_append, hA]

/-- Behind a node taller than `i`, the rest of the list does not change what comes next. -/
theorem nextAt_append_eq {A : List ν} (h : ¬ ∀ a ∈ A, ht a ≤ i) (B C : List ν) :
    nextAt ht i (A ++ B) = nextAt ht i (A ++ C) := by
  obtain ⟨a, ha⟩ := Option.ne_none_iff_exists'.mp fun hn => h (nextAt_eq_none_iff.mp hn)
  have hA : A.find? (fun q => decide (i < ht q)) = some a := ha
  simp [nextAt, List.find?_append, hA]

theorem mem_of_nextAt {B : List ν} {b : ν} (h : nextAt ht i B = some b) : b ∈ B :=
  List.mem_of_find?_eq_some h

theorem lt_of_nextAt {B : List ν} {b : ν} (h : nextAt ht i B = some b) : i < ht b := by
  simpa using List.find?_some h

/-- When every node is taller than `i`, the next node is the head of the list. -/
theorem nextAt_eq_head? {B : List ν} (h : ∀ b ∈ B, i < ht b) : nextAt ht i B = B.head? := by
  cases B with
  | nil => rfl
  | cons b B => exact nextAt_cons_of_lt (h b (by simp)) B

theorem nextAt_congr {ht' : ν → ℕ} {B : List ν} (h : ∀ b ∈ B, ht' b = ht b) :
    nextAt ht' i B = nextAt ht i B := by
  induction B with
  | nil => rfl
  | cons b B ih =>
      have hb : ht' b = ht b := h b (by simp)
      have ih := ih fun c hc => h c (by simp [hc])
      by_cases hi : i < ht b
      · rw [nextAt_cons_of_lt hi, nextAt_cons_of_lt (hb ▸ hi)]
      · rw [nextAt_cons_of_le (by omega), nextAt_cons_of_le (by omega), ih]

/-! ## The last node of a level -/

@[simp] theorem lastAt_nil (x : ν) : lastAt ht i x [] = x := rfl

theorem lastAt_cons_of_lt {a : ν} (h : i < ht a) (x : ν) (A : List ν) :
    lastAt ht i x (a :: A) = lastAt ht i a A := by
  simp [lastAt, h]

theorem lastAt_cons_of_le {a : ν} (h : ht a ≤ i) (x : ν) (A : List ν) :
    lastAt ht i x (a :: A) = lastAt ht i x A := by
  simp [lastAt, Nat.not_lt.mpr h]

theorem lastAt_append (x : ν) (A B : List ν) :
    lastAt ht i x (A ++ B) = lastAt ht i (lastAt ht i x A) B := by
  induction A generalizing x with
  | nil => rfl
  | cons a A ih => simpa [lastAt] using ih _

theorem lastAt_eq_of_le {A : List ν} (h : ∀ a ∈ A, ht a ≤ i) (x : ν) : lastAt ht i x A = x := by
  induction A with
  | nil => rfl
  | cons a A ih =>
      rw [lastAt_cons_of_le (h a (by simp)), ih fun b hb => h b (by simp [hb])]

theorem lastAt_congr {ht' : ν → ℕ} {A : List ν} (h : ∀ a ∈ A, ht' a = ht a) (x : ν) :
    lastAt ht' i x A = lastAt ht i x A := by
  induction A generalizing x with
  | nil => rfl
  | cons a A ih =>
      have ha : ht' a = ht a := h a (by simp)
      simp only [lastAt, ha, ih fun b hb => h b (by simp [hb])]

/-- What is behind any node of `h :: A` is behind `h`. -/
theorem mem_of_split {h x a : ν} {A P Q : List ν} (hsplit : h :: A = P ++ x :: Q) (ha : a ∈ Q) :
    a ∈ A := by
  cases P with
  | nil =>
      obtain ⟨-, rfl⟩ := List.cons.inj hsplit
      exact ha
  | cons c P =>
      obtain ⟨-, rfl⟩ := List.cons.inj hsplit
      exact List.mem_append_right P (List.mem_cons_of_mem x ha)

/-- The last node splits the list, with no node taller than `i` behind it. -/
theorem lastAt_split (ht : ν → ℕ) (i : ℕ) (x : ν) (A : List ν) :
    ∃ A₁ A₂, x :: A = A₁ ++ lastAt ht i x A :: A₂ ∧ ∀ a ∈ A₂, ht a ≤ i := by
  induction A generalizing x with
  | nil => exact ⟨[], [], by simp⟩
  | cons a A ih =>
      by_cases ha : i < ht a
      · obtain ⟨A₁, A₂, hsplit, hle⟩ := ih a
        rw [lastAt_cons_of_lt ha]
        exact ⟨x :: A₁, A₂, by rw [hsplit]; rfl, hle⟩
      · rw [lastAt_cons_of_le (by omega)]
        obtain ⟨A₁, A₂, hsplit, hle⟩ := ih x
        cases A₁ with
        | nil =>
            obtain ⟨hx, hA⟩ := List.cons.inj hsplit
            refine ⟨[], a :: A₂, by rw [← hx, ← hA]; rfl, fun b hb => ?_⟩
            rcases List.mem_cons.mp hb with rfl | hb
            · omega
            · exact hle b hb
        | cons y A₁ =>
            obtain ⟨rfl, hA⟩ := List.cons.inj hsplit
            refine ⟨x :: a :: A₁, A₂, ?_, hle⟩
            conv_lhs => rw [hA]
            rfl

theorem lastAt_mem (x : ν) (A : List ν) : lastAt ht i x A ∈ x :: A := by
  obtain ⟨A₁, A₂, hsplit, -⟩ := lastAt_split ht i x A
  rw [hsplit]
  simp

theorem lt_ht_lastAt {x : ν} (hx : i < ht x) (A : List ν) : i < ht (lastAt ht i x A) := by
  induction A generalizing x with
  | nil => exact hx
  | cons a A ih =>
      by_cases ha : i < ht a
      · rw [lastAt_cons_of_lt ha]; exact ih ha
      · rw [lastAt_cons_of_le (by omega)]; exact ih hx

/-- Any node taller than `i` may be taken as the start of the search for the last one. -/
theorem lastAt_of_split {x y : ν} {A A₁ A₂ : List ν} (h : x :: A = A₁ ++ y :: A₂) (hy : i < ht y) :
    lastAt ht i x A = lastAt ht i y A₂ := by
  cases A₁ with
  | nil => obtain ⟨rfl, rfl⟩ := List.cons.inj h; rfl
  | cons z A₁ =>
      obtain ⟨-, rfl⟩ := List.cons.inj h
      rw [List.append_eq, lastAt_append, lastAt_cons_of_lt hy]

/-- The last node taller than `i` is the last one of level `i`. -/
theorem lastAt_eq_getLast? (x : ν) (A : List ν) :
    lastAt ht i x A = (A.filter fun a => i < ht a).getLast?.getD x := by
  induction A generalizing x with
  | nil => rfl
  | cons a A ih =>
      by_cases ha : i < ht a
      · rw [lastAt_cons_of_lt ha, ih, List.filter_cons, if_pos (decide_eq_true ha),
          List.getLast?_cons, Option.getD_some]
      · rw [lastAt_cons_of_le (Nat.not_lt.mp ha), ih, List.filter_cons,
          if_neg (by simpa using ha)]

/-- Node `p` of a list without repetitions is the last one taller than `i` exactly when it is taller
than `i` and nothing behind it is. -/
theorem eq_lastAt_iff {x p : ν} {A A₁ A₂ : List ν} (h : x :: A = A₁ ++ p :: A₂)
    (hnd : (x :: A).Nodup) (hp : i < ht p) :
    p = lastAt ht i x A ↔ ∀ a ∈ A₂, ht a ≤ i := by
  rw [lastAt_of_split h hp]
  constructor
  · intro heq
    obtain ⟨P, Q, hsplit, hle⟩ := lastAt_split ht i p A₂
    rw [← heq] at hsplit
    have hp2 : p ∉ A₂ := by
      rw [h] at hnd
      exact fun hmem => (List.nodup_cons.mp (List.nodup_append.mp hnd).2.1).1 hmem
    cases P with
    | nil => obtain ⟨-, rfl⟩ := List.cons.inj hsplit; exact hle
    | cons z P =>
        obtain ⟨-, rfl⟩ := List.cons.inj hsplit
        simp at hp2
  · exact fun hle => (lastAt_eq_of_le hle p).symm

/-! ## Linked lists of pointers -/

variable {fwd fwd' : ν → ℕ → Option ν}

theorem Linked.suffix {A B : List ν} (h : Linked fwd ht (A ++ B)) : Linked fwd ht B :=
  fun P p Q hB => h (A ++ P) p Q (by rw [hB, List.append_assoc])

theorem Linked.fwd_head {p : ν} {B : List ν} (h : Linked fwd ht (p :: B)) (hi : i < ht p) :
    fwd p i = nextAt ht i B :=
  h [] p B rfl i hi

/-- Linkedness only looks at the pointers and heights of the nodes of the list. -/
theorem Linked.congr {ht' : ν → ℕ} {L : List ν} (h : Linked fwd ht L)
    (hht : ∀ p ∈ L, ht' p = ht p) (hfwd : ∀ p ∈ L, ∀ i < ht p, fwd' p i = fwd p i) :
    Linked fwd' ht' L := by
  intro A p B hL i hi
  have hp : p ∈ L := by rw [hL]; simp
  rw [hht p hp] at hi
  rw [hfwd p hp i hi, h A p B hL i hi]
  exact (nextAt_congr fun b hb => hht b (by rw [hL]; simp [hb])).symm

/-- The last node of `x :: A` taller than `i` points at the first one of `B`. -/
theorem Linked.fwd_lastAt {x : ν} {A B : List ν} (h : Linked fwd ht (x :: A ++ B)) (hx : i < ht x) :
    fwd (lastAt ht i x A) i = nextAt ht i B := by
  obtain ⟨A₁, A₂, hsplit, hle⟩ := lastAt_split ht i x A
  rw [h A₁ (lastAt ht i x A) (A₂ ++ B) (by rw [hsplit]; simp) i (lt_ht_lastAt hx A)]
  exact nextAt_append_of_le hle B

/-- The three places of a node in `A ++ x :: B`. -/
theorem split_cases {A B P Q : List ν} {x p : ν} (h : A ++ x :: B = P ++ p :: Q) :
    (∃ A₂, A = P ++ p :: A₂ ∧ Q = A₂ ++ x :: B) ∨ (P = A ∧ p = x ∧ Q = B) ∨
      ∃ B₁, P = A ++ x :: B₁ ∧ B = B₁ ++ p :: Q := by
  rcases List.append_eq_append_iff.mp h with ⟨C, hP, hB⟩ | ⟨C, hA, hQ⟩
  · cases C with
    | nil =>
        obtain ⟨rfl, rfl⟩ := List.cons.inj hB
        exact Or.inr (Or.inl ⟨by simpa using hP, rfl, rfl⟩)
    | cons c C =>
        obtain ⟨rfl, rfl⟩ := List.cons.inj hB
        exact Or.inr (Or.inr ⟨C, hP, rfl⟩)
  · cases C with
    | nil =>
        obtain ⟨rfl, rfl⟩ := List.cons.inj hQ
        exact Or.inr (Or.inl ⟨by simpa using hA.symm, rfl, rfl⟩)
    | cons c C =>
        obtain ⟨rfl, rfl⟩ := List.cons.inj hQ
        exact Or.inl ⟨C, hA, rfl⟩

/-- A list in order stays so with a node that is in order with those in front of it and
behind it. -/
theorem pairwise_insert {R : ν → ν → Prop} {A B : List ν} {x : ν} (h : (A ++ B).Pairwise R)
    (hA : ∀ a ∈ A, R a x) (hB : ∀ b ∈ B, R x b) : (A ++ x :: B).Pairwise R := by
  obtain ⟨hA', hB', hAB⟩ := List.pairwise_append.mp h
  refine List.pairwise_append.mpr ⟨hA', List.pairwise_cons.mpr ⟨hB, hB'⟩, fun a ha b hb => ?_⟩
  rcases List.mem_cons.mp hb with rfl | hb
  · exact hA a ha
  · exact hAB a ha b hb

/-- A node behind `h :: A` is not the last one of `h :: A` at any level. -/
theorem ne_lastAt_of_mem (ht : ν → ℕ) (i : ℕ) {h p : ν} {A B : List ν}
    (hnd : (h :: A ++ B).Nodup) (hp : p ∈ B) : p ≠ lastAt ht i h A := by
  rintro rfl
  exact (List.nodup_append.mp hnd).2.2 _ (lastAt_mem h A) _ hp rfl

/-- Putting `x` between `h :: A` and `B`: `x` takes over what its predecessors pointed at, and at
every level below `x`'s height the last node in front of it points at `x`. -/
theorem Linked.splice {h x : ν} {A B : List ν}
    (hL : Linked fwd ht (h :: A ++ B)) (hnd : (h :: A ++ x :: B).Nodup)
    (hx : ∀ i < ht x, fwd' x i = nextAt ht i B)
    (hprev : ∀ i < ht x, fwd' (lastAt ht i h A) i = some x)
    (hkeep : ∀ p ∈ h :: A ++ B, ∀ i < ht p, ¬ (i < ht x ∧ p = lastAt ht i h A) →
      fwd' p i = fwd p i) :
    Linked fwd' ht (h :: A ++ x :: B) := by
  have hndA : (h :: A).Nodup := (List.nodup_append.mp hnd).1
  intro P p Q hsplit i hi
  rcases split_cases hsplit with ⟨A₂, hA, rfl⟩ | ⟨rfl, rfl, rfl⟩ | ⟨B₁, hP, hB⟩
  · -- a node in front of `x`: it is redirected exactly when it is the last one of its level
    have hold := hL P p (A₂ ++ B) (by rw [hA]; simp) i hi
    have hmem : p ∈ h :: A ++ B := by rw [hA]; simp
    have hlast := eq_lastAt_iff hA hndA hi
    by_cases hle : ∀ a ∈ A₂, ht a ≤ i
    · rw [nextAt_append_of_le hle] at hold ⊢
      by_cases hxi : i < ht x
      · rw [hlast.mpr hle, hprev i hxi, nextAt_cons_of_lt hxi]
      · rw [hkeep p hmem i hi fun hc => hxi hc.1, hold, nextAt_cons_of_le (Nat.not_lt.mp hxi)]
    · rw [hkeep p hmem i hi fun hc => hle (hlast.mp hc.2), hold]
      exact nextAt_append_eq hle B (x :: B)
  · exact hx i hi
  · have hpB : p ∈ B := by rw [hB]; simp
    have hne := ne_lastAt_of_mem ht i hnd (List.mem_cons_of_mem x hpB)
    rw [hkeep p (by simp [hpB]) i hi fun hc => hne hc.2]
    exact hL (h :: A ++ B₁) p Q (by rw [hB]; simp) i hi

/-- Taking `x` out from between `h :: A` and `B`: at every level below `x`'s height the last node in
front of it takes over `x`'s pointer. -/
theorem Linked.unsplice {h x : ν} {A B : List ν}
    (hL : Linked fwd ht (h :: A ++ x :: B)) (hnd : (h :: A ++ x :: B).Nodup)
    (hprev : ∀ i < ht x, fwd' (lastAt ht i h A) i = fwd x i)
    (hkeep : ∀ p ∈ h :: A ++ B, ∀ i < ht p, ¬ (i < ht x ∧ p = lastAt ht i h A) →
      fwd' p i = fwd p i) :
    Linked fwd' ht (h :: A ++ B) := by
  have hndA : (h :: A).Nodup := (List.nodup_append.mp hnd).1
  intro P p Q hsplit i hi
  have hmem : p ∈ h :: A ++ B := by rw [hsplit]; simp
  rcases List.append_eq_append_iff.mp hsplit with ⟨C, hP, hB⟩ | ⟨C, hA, hQ⟩
  · have hpB : p ∈ B := by rw [hB]; simp
    have hne := ne_lastAt_of_mem ht i hnd (List.mem_cons_of_mem x hpB)
    rw [hkeep p hmem i hi fun hc => hne hc.2]
    exact hL (h :: A ++ x :: C) p Q (by rw [hB]; simp) i hi
  · cases C with
    | nil =>
        have hB : p :: Q = B := by simpa using hQ
        have hpB : p ∈ B := by rw [← hB]; simp
        have hne := ne_lastAt_of_mem ht i hnd (List.mem_cons_of_mem x hpB)
        rw [hkeep p hmem i hi fun hc => hne hc.2]
        exact hL (h :: A ++ [x]) p Q (by simp [← hB]) i hi
    | cons c A₂ =>
        obtain ⟨rfl, rfl⟩ := List.cons.inj hQ
        have hold := hL P p (A₂ ++ x :: B) (by rw [hA]; simp) i hi
        have hlast := eq_lastAt_iff hA hndA hi
        by_cases hle : ∀ a ∈ A₂, ht a ≤ i
        · rw [List.append_eq, nextAt_append_of_le hle]
          rw [nextAt_append_of_le hle] at hold
          by_cases hxi : i < ht x
          · rw [hlast.mpr hle, hprev i hxi]
            exact hL (h :: A) x B rfl i hxi
          · rw [hkeep p hmem i hi fun hc => hxi hc.1, hold, nextAt_cons_of_le (Nat.not_lt.mp hxi)]
        · rw [hkeep p hmem i hi fun hc => hle (hlast.mp hc.2), hold]
          exact nextAt_append_eq hle (x :: B) B

end Tower
