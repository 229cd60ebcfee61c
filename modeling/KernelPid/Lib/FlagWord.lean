import Mathlib.Algebra.Group.Nat.Defs
import Mathlib.Data.Nat.Basic
import Mathlib.Tactic.Common

/-!
# A flag and a counter in one word

The top bit of a word is a flag, and the bits below it are a counter. As long as the counter does
not run over its bits or below 0, adding 1 to the word and subtracting 1 from it are those on the
counter, and leave the flag alone.
-/

namespace FlagWord

variable {w : ℕ} {x : BitVec (w + 1)}

/-- The flag without a counter. -/
def flag (w : ℕ) : BitVec (w + 1) := BitVec.twoPow (w + 1) w

/-- The word without its flag. -/
def count (x : BitVec (w + 1)) : ℕ := (x &&& ~~~flag w).toNat

/-- The flag is set. -/
def IsSet (x : BitVec (w + 1)) : Prop := x &&& flag w ≠ 0

theorem toNat_flag : (flag w).toNat = 2 ^ w := by
  rw [flag, BitVec.toNat_twoPow, Nat.mod_eq_of_lt]
  exact Nat.pow_lt_pow_right (by decide) (Nat.lt_succ_self w)

theorem count_eq_mod (x : BitVec (w + 1)) : count x = x.toNat % 2 ^ w := by
  have hmask : (~~~flag w).toNat = 2 ^ w - 1 := by
    rw [BitVec.toNat_not, toNat_flag, Nat.pow_succ]
    omega
  rw [count, BitVec.toNat_and, hmask, Nat.and_two_pow_sub_one_eq_mod]

theorem count_lt (x : BitVec (w + 1)) : count x < 2 ^ w := by
  rw [count_eq_mod]
  exact Nat.mod_lt _ (Nat.two_pow_pos w)

theorem isSet_iff (x : BitVec (w + 1)) : IsSet x ↔ 2 ^ w ≤ x.toNat := by
  have hbit : x.getLsbD w = decide (2 ^ w ≤ x.toNat) := BitVec.getLsbD_last x
  have hflag : flag w ≠ 0 := by
    intro hzero
    have hpow := toNat_flag (w := w)
    rw [hzero] at hpow
    exact absurd hpow (Nat.ne_of_lt (Nat.two_pow_pos w))
  rw [IsSet, flag, BitVec.and_twoPow, hbit, ← flag]
  by_cases hle : 2 ^ w ≤ x.toNat
  · simpa [hle] using hflag
  · simp [hle]

/-- A word is its counter, with `2 ^ w` on top of it for the flag. -/
theorem toNat_cases (x : BitVec (w + 1)) :
    (¬ IsSet x ∧ x.toNat = count x) ∨ (IsSet x ∧ x.toNat = 2 ^ w + count x) := by
  have hlt : x.toNat < 2 ^ (w + 1) := x.isLt
  rw [Nat.pow_succ] at hlt
  rw [isSet_iff, count_eq_mod]
  by_cases hle : 2 ^ w ≤ x.toNat
  · have hsub : x.toNat - 2 ^ w < 2 ^ w := by omega
    refine Or.inr ⟨hle, ?_⟩
    rw [Nat.mod_eq_sub_mod hle, Nat.mod_eq_of_lt hsub]
    omega
  · exact Or.inl ⟨hle, (Nat.mod_eq_of_lt (Nat.lt_of_not_le hle)).symm⟩

/-- The counter and the flag of a word, from its value. -/
theorem of_toNat {b : Prop} {a : ℕ} (ha : a < 2 ^ w)
    (h : (¬ b ∧ x.toNat = a) ∨ (b ∧ x.toNat = 2 ^ w + a)) : count x = a ∧ (IsSet x ↔ b) := by
  have hlt := count_lt x
  -- the value tells the flag, so the two mixed cases cannot be
  rcases toNat_cases x with ⟨hset, hx⟩ | ⟨hset, hx⟩ <;> rcases h with ⟨hb, hx'⟩ | ⟨hb, hx'⟩
  · exact ⟨by omega, iff_of_false hset hb⟩
  · omega
  · omega
  · exact ⟨by omega, iff_of_true hset hb⟩

/-! ## Counting up and down -/

theorem toNat_add_one (h : count x + 1 < 2 ^ w) : (x + 1).toNat = x.toNat + 1 := by
  have hone : (1 : BitVec (w + 1)).toNat = 1 := by simp
  have hx : x.toNat + 1 < 2 ^ (w + 1) := by
    rw [Nat.pow_succ]
    rcases toNat_cases x with ⟨-, hx⟩ | ⟨-, hx⟩ <;> omega
  rw [BitVec.toNat_add, hone, Nat.mod_eq_of_lt hx]

/-- Adding 1 does not carry into the flag. -/
theorem add_one (h : count x + 1 < 2 ^ w) :
    count (x + 1) = count x + 1 ∧ (IsSet (x + 1) ↔ IsSet x) := by
  apply of_toNat h
  rw [toNat_add_one h]
  rcases toNat_cases x with ⟨hset, hx⟩ | ⟨hset, hx⟩
  · exact Or.inl ⟨hset, by omega⟩
  · exact Or.inr ⟨hset, by omega⟩

theorem toNat_sub_one (h : 1 ≤ count x) : (x - 1).toNat = x.toNat - 1 := by
  have hone : (1 : BitVec (w + 1)).toNat = 1 := by simp
  have hle : (1 : BitVec (w + 1)) ≤ x := by
    rw [BitVec.le_def, hone]
    rcases toNat_cases x with ⟨-, hx⟩ | ⟨-, hx⟩ <;> omega
  rw [BitVec.toNat_sub_of_le hle, hone]

/-- Subtracting 1 does not borrow from the flag. -/
theorem sub_one (h : 1 ≤ count x) : count (x - 1) = count x - 1 ∧ (IsSet (x - 1) ↔ IsSet x) := by
  have hlt := count_lt x
  apply of_toNat (by omega)
  rw [toNat_sub_one h]
  rcases toNat_cases x with ⟨hset, hx⟩ | ⟨hset, hx⟩
  · exact Or.inl ⟨hset, by omega⟩
  · exact Or.inr ⟨hset, by omega⟩

/-! ## The flag -/

theorem not_isSet_zero : ¬ IsSet (0 : BitVec (w + 1)) := by
  simp [IsSet]

theorem count_zero : count (0 : BitVec (w + 1)) = 0 := by
  simp [count]

theorem count_flag : count (flag w) = 0 := by
  rw [count_eq_mod, toNat_flag, Nat.mod_self]

/-- Clearing the flag leaves the counter alone. -/
theorem clear (x : BitVec (w + 1)) :
    count (x &&& ~~~flag w) = count x ∧ ¬ IsSet (x &&& ~~~flag w) := by
  constructor
  · rw [count, count, BitVec.and_assoc, BitVec.and_self]
  · simp [IsSet, BitVec.and_assoc]

end FlagWord
