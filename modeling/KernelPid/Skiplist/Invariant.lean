import KernelPid.Lib.Tower
import KernelPid.Skiplist.Basic
import Mathlib.Data.List.Perm.Subperm

/-!
# The representation invariant of the plain skip list

`Shape s h L` says that the list `s` with header `h` is the tower of the nodes `L`, in that order;
`Inv s h L` adds that their keys ascend strictly. `Shape` alone is what the searches and the pointer
updates need to be free of faults.

The accessors `fwd`, `ht`, `key` and `pid` read a node's fields without the checks of the model;
`forward_eq`, `deref_eq` and `setForward_eq` say when the checks pass.
-/

namespace KernelPid.PidSkiplist

open Runs Tower

variable {α : Type} {s s' : PidSkiplist α} {h x y : Addr} {i j : ℕ}

/-! ## Fields of a node -/

def fwd (s : PidSkiplist α) (x : Addr) (i : ℕ) : Option Addr :=
  match s.node x with
  | some n => n.forward i
  | none => none

/-- The number of forward pointers of `x`, `0` when no node is allocated there. -/
def ht (s : PidSkiplist α) (x : Addr) : ℕ :=
  match s.node x with
  | some n => n.level
  | none => 0

def key (s : PidSkiplist α) (x : Addr) : ℤ :=
  match s.node x with
  | some n => n.key
  | none => 0

def pid (s : PidSkiplist α) (x : Addr) : Option α :=
  match s.node x with
  | some n => n.pid
  | none => none

theorem deref_eq (hx : 0 < s.ht x) : s.deref x = .ok ⟨s.key x, s.pid x, s.fwd x, s.ht x⟩ := by
  unfold ht at hx
  simp only [deref, key, pid, ht]
  cases hn : s.node x with
  | none => simp [hn] at hx
  | some n =>
      have hfwd : s.fwd x = n.forward := by funext i; simp [fwd, hn]
      simp [hfwd]

theorem forward_eq (hi : i < s.ht x) : s.forward x i = .ok (s.fwd x i) := by
  simp only [forward, deref_eq (Nat.zero_lt_of_lt hi), ok_bind, if_pos hi]

/-- `setForward` without its checks. -/
def writeForward (s : PidSkiplist α) (x : Addr) (i : ℕ) (y : Option Addr) : PidSkiplist α :=
  s.modifyNode x fun n => { n with forward := Function.update n.forward i y }

theorem setForward_eq (hi : i < s.ht x) (y : Option Addr) :
    s.setForward x i y = .ok (s.writeForward x i y) := by
  simp only [setForward, deref_eq (Nat.zero_lt_of_lt hi), ok_bind, if_pos hi, writeForward]

/-! ## What a write leaves alone -/

/-- `s'` is `s` with some forward pointers overwritten. -/
structure Frame (s s' : PidSkiplist α) : Prop where
  level : s'.level = s.level
  header : s'.header = s.header
  brk : s'.brk = s.brk
  rcu : s'.rcu = s.rcu
  log : s'.log = s.log
  ht : s'.ht = s.ht
  key : s'.key = s.key
  pid : s'.pid = s.pid

theorem Frame.refl (s : PidSkiplist α) : Frame s s :=
  ⟨rfl, rfl, rfl, rfl, rfl, rfl, rfl, rfl⟩

theorem Frame.trans {s'' : PidSkiplist α} (h₁ : Frame s s') (h₂ : Frame s' s'') : Frame s s'' :=
  ⟨h₂.level.trans h₁.level, h₂.header.trans h₁.header, h₂.brk.trans h₁.brk, h₂.rcu.trans h₁.rcu,
    h₂.log.trans h₁.log, h₂.ht.trans h₁.ht, h₂.key.trans h₁.key, h₂.pid.trans h₁.pid⟩

theorem frame_writeForward (s : PidSkiplist α) (x : Addr) (i : ℕ) (y : Option Addr) :
    Frame s (s.writeForward x i y) := by
  refine ⟨rfl, rfl, rfl, rfl, rfl, ?_, ?_, ?_⟩ <;>
    · funext q
      by_cases hq : q = x
      · subst hq
        cases hn : s.node q <;> simp [writeForward, modifyNode, ht, key, pid, hn]
      · simp [writeForward, modifyNode, ht, key, pid, hq]

theorem fwd_writeForward (hx : 0 < s.ht x) (i : ℕ) (y : Option Addr) (q : Addr) (j : ℕ) :
    (s.writeForward x i y).fwd q j = if q = x ∧ j = i then y else s.fwd q j := by
  unfold ht at hx
  by_cases hq : q = x
  · subst hq
    cases hn : s.node q with
    | none => simp [hn] at hx
    | some n =>
        by_cases hj : j = i
        · subst hj; simp [writeForward, modifyNode, fwd, hn]
        · simp [writeForward, modifyNode, fwd, hn, hj]
  · simp [writeForward, modifyNode, fwd, hq]

section SetPid

variable (s) (x) (v : Option α)

@[simp] theorem setPid_level : (s.setPid x v).level = s.level := rfl
@[simp] theorem setPid_header : (s.setPid x v).header = s.header := rfl
@[simp] theorem setPid_brk : (s.setPid x v).brk = s.brk := rfl

@[simp] theorem setPid_fwd : (s.setPid x v).fwd = s.fwd := by
  funext q j
  by_cases hq : q = x
  · subst hq; cases hn : s.node q <;> simp [setPid, modifyNode, fwd, hn]
  · simp [setPid, modifyNode, fwd, hq]

@[simp] theorem setPid_ht : (s.setPid x v).ht = s.ht := by
  funext q
  by_cases hq : q = x
  · subst hq; cases hn : s.node q <;> simp [setPid, modifyNode, ht, hn]
  · simp [setPid, modifyNode, ht, hq]

@[simp] theorem setPid_key : (s.setPid x v).key = s.key := by
  funext q
  by_cases hq : q = x
  · subst hq; cases hn : s.node q <;> simp [setPid, modifyNode, key, hn]
  · simp [setPid, modifyNode, key, hq]

variable {s x}

theorem setPid_pid (hx : 0 < s.ht x) (q : Addr) :
    (s.setPid x v).pid q = if q = x then v else s.pid q := by
  unfold ht at hx
  by_cases hq : q = x
  · subst hq
    cases hn : s.node q with
    | none => simp [hn] at hx
    | some n => simp [setPid, modifyNode, pid, hn]
  · simp [setPid, modifyNode, pid, hq]

end SetPid

/-! ## The invariant -/

/-- The nodes `L`, behind the header `h`, are the list `s`, whatever their keys. -/
structure Shape (s : PidSkiplist α) (h : Addr) (L : List Addr) : Prop where
  header : s.header = some h
  header_ht : s.ht h = pidSlMaxLevel
  nodup : (h :: L).Nodup
  ht_pos : ∀ p ∈ L, 0 < s.ht p
  ht_le : ∀ p ∈ L, s.ht p ≤ s.level
  linked : Linked s.fwd s.ht (h :: L)
  level_pos : 0 < s.level
  level_le : s.level ≤ pidSlMaxLevel
  lt_brk : ∀ x, 0 < s.ht x → x < s.brk

/-- The representation invariant: the nodes `L` are the list `s`, with strictly ascending keys. -/
structure Inv (s : PidSkiplist α) (h : Addr) (L : List Addr) : Prop extends Shape s h L where
  sorted : L.Pairwise fun p q => s.key p < s.key q

variable {L A B : List Addr}

theorem Shape.getHeader (hs : Shape s h L) : s.getHeader = .ok h := by
  simp [PidSkiplist.getHeader, hs.header]

theorem Shape.level_le_header (hs : Shape s h L) : s.level ≤ s.ht h := by
  rw [hs.header_ht]; exact hs.level_le

theorem Shape.header_pos (hs : Shape s h L) : 0 < s.ht h :=
  lt_of_lt_of_le hs.level_pos hs.level_le_header

theorem Shape.ht_pos' (hs : Shape s h L) : ∀ p ∈ h :: L, 0 < s.ht p := by
  intro p hp
  rcases List.mem_cons.mp hp with rfl | hp
  · exact hs.header_pos
  · exact hs.ht_pos p hp

/-- `brk` bounds the number of nodes, so it is fuel enough for every walk. -/
theorem Shape.length_lt_brk (hs : Shape s h L) : L.length < s.brk := by
  have hsub : (h :: L) ⊆ List.range s.brk := fun p hp =>
    List.mem_range.mpr (hs.lt_brk p (hs.ht_pos' p hp))
  have hle := (List.subperm_of_subset hs.nodup hsub).length_le
  rw [List.length_cons, List.length_range] at hle
  exact hle

/-- The header's pointers from `sl->level` up are `NULL`. -/
theorem Shape.fwd_header_eq_none (hs : Shape s h L) (hi : s.level ≤ i) (hi' : i < s.ht h) :
    s.fwd h i = none := by
  rw [hs.linked.fwd_head hi']
  exact nextAt_eq_none_iff.mpr fun b hb => le_trans (hs.ht_le b hb) hi

/-- A list whose nodes keep their fields keeps its shape. -/
theorem Shape.of_eq (hs : Shape s h L) (hheader : s'.header = s.header)
    (hlevel : s'.level = s.level) (hbrk : s'.brk = s.brk) (hht : s'.ht = s.ht)
    (hfwd : s'.fwd = s.fwd) : Shape s' h L where
  header := hheader.trans hs.header
  header_ht := by rw [hht]; exact hs.header_ht
  nodup := hs.nodup
  ht_pos := by rw [hht]; exact hs.ht_pos
  ht_le := by rw [hht, hlevel]; exact hs.ht_le
  linked := by rw [hfwd, hht]; exact hs.linked
  level_pos := by rw [hlevel]; exact hs.level_pos
  level_le := by rw [hlevel]; exact hs.level_le
  lt_brk := by rw [hht, hbrk]; exact hs.lt_brk

/-- Replacing a node's value keeps the invariant. -/
theorem Inv.setPid (hs : Inv s h L) (x : Addr) (v : Option α) : Inv (s.setPid x v) h L where
  toShape := hs.toShape.of_eq rfl rfl rfl (setPid_ht s x v) (setPid_fwd s x v)
  sorted := by rw [setPid_key]; exact hs.sorted

/-- An initialised list is empty. -/
theorem inv_init : Inv (init : PidSkiplist α) 0 [] where
  header := rfl
  header_ht := rfl
  nodup := by simp
  ht_pos := by simp
  ht_le := by simp
  linked := by
    intro A p B hL i _
    have hA : A = [] := by
      cases A with
      | nil => rfl
      | cons a A => simp at hL
    subst hA
    obtain ⟨rfl, rfl⟩ := List.cons.inj hL
    rfl
  level_pos := Nat.one_pos
  level_le := show (1 : ℕ) ≤ 16 by decide
  lt_brk := by
    intro x hx
    by_cases h0 : x = 0
    · subst h0; exact Nat.one_pos
    · simp [init, ht, h0] at hx
  sorted := List.Pairwise.nil

end KernelPid.PidSkiplist
