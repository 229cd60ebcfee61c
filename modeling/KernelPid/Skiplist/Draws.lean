import KernelPid.Skiplist.Basic
import Mathlib.Data.Int.CardIntervalMod

/-!
# The levels that are drawn

`pid_sl_random_level` takes four bits of a random number for each level, and the number has 32 bits.
So one node in 16 goes up from each of the levels 1 to 8. Behind level 8 no bits are left but zeros,
and the loop runs on to the top: the levels 9 to 15 are not drawn, and the top one is for the random
number 0 (`level_draws`).
-/

namespace KernelPid

/-- The last four bits are zero. -/
theorem low_bits_eq_zero_iff (random : BitVec 32) :
    random &&& ((1 <<< pidSlP) - 1) = 0 ↔ 2 ^ 4 ∣ random.toNat := by
  have hmask : ((1 <<< pidSlP) - 1 : BitVec 32).toNat = 2 ^ 4 - 1 := by decide
  rw [← BitVec.toNat_inj, BitVec.toNat_and, hmask, Nat.and_two_pow_sub_one_eq_mod]
  exact Nat.dvd_iff_mod_eq_zero.symm

theorem toNat_shiftRight_level (random : BitVec 32) :
    (random >>> pidSlP).toNat = random.toNat / 2 ^ 4 := by
  rw [BitVec.toNat_ushiftRight, Nat.shiftRight_eq_div_pow]
  rfl

/-- With `n` rounds left, the level goes up by more than `j` if and only if the last `j + 1` groups
of four bits are zero. -/
theorem lt_randomLevelFrom_iff {n : ℕ} (hn : n ≤ 16) (random : BitVec 32) {j : ℕ} (hj : j < n) :
    16 - n + j < randomLevelFrom n random ↔ 2 ^ (4 * (j + 1)) ∣ random.toNat := by
  induction n generalizing random j with
  | zero => omega
  | succ n ih =>
      have hle := le_randomLevelFrom n (random >>> pidSlP)
      have hmax : pidSlMaxLevel = 16 := rfl
      unfold randomLevelFrom
      split
      · rename_i hbits
        obtain ⟨q, hq⟩ := (low_bits_eq_zero_iff random).mp hbits
        cases j with
        | zero =>
            refine iff_of_true (by omega) ?_
            rw [hq]
            exact Dvd.intro q rfl
        | succ j =>
            -- the other groups are those of the shifted number
            have hshift : (random >>> pidSlP).toNat = q := by
              rw [toNat_shiftRight_level, hq]
              exact Nat.mul_div_cancel_left q (by decide)
            have hrest := ih (by omega) (random >>> pidSlP) (Nat.lt_of_succ_lt_succ hj)
            have hpow : 2 ^ (4 * (j + 1 + 1)) = 2 ^ 4 * 2 ^ (4 * (j + 1)) := by
              rw [← pow_add]
              congr 1
              omega
            rw [hshift] at hrest
            rw [hq, hpow, Nat.mul_dvd_mul_iff_left (by decide), ← hrest]
            have hlevel : 16 - (n + 1) + (j + 1) = 16 - n + j := by omega
            rw [hlevel]
      · rename_i hbits
        refine iff_of_false (by omega) fun hdvd => hbits ((low_bits_eq_zero_iff random).mpr ?_)
        exact (pow_dvd_pow 2 (by omega)).trans hdvd

/-- The level drawn is above `l` if and only if the last `l` groups of four bits are zero. -/
theorem lt_pidSlRandomLevel_iff (random : BitVec 32) {l : ℕ} (hl : l < 16) :
    l < (pidSlRandomLevel random).val ↔ 2 ^ (4 * l) ∣ random.toNat := by
  cases l with
  | zero => exact iff_of_true (pidSlRandomLevel random).pos (by simp)
  | succ l =>
      have hiff := lt_randomLevelFrom_iff (n := 15) (by decide) random (by omega : l < 15)
      rw [← hiff]
      show l + 1 < randomLevelFrom 15 random ↔ _
      rw [Nat.add_comm]

/-- Of the `2 ^ 32` random numbers, one in `16 ^ l` makes a level above `l`, up to `l = 8`. The
levels 9 to 15 are never drawn, and the top level for the random number 0 only. -/
theorem level_draws :
    (∀ l ≤ 8, Nat.count (fun k => l < (pidSlRandomLevel (BitVec.ofNat 32 k)).val) (2 ^ 32) =
      2 ^ (32 - 4 * l)) ∧
    ∀ random, 8 < (pidSlRandomLevel random).val ↔
      random = 0 ∧ (pidSlRandomLevel random).val = pidSlMaxLevel := by
  constructor
  · intro l hl
    have hiff : ∀ k < 2 ^ 32, l < (pidSlRandomLevel (BitVec.ofNat 32 k)).val ↔
      k ≡ 0 [MOD 2 ^ (4 * l)] := by
      intro k hk
      rw [lt_pidSlRandomLevel_iff _ (by omega), BitVec.toNat_ofNat, Nat.mod_eq_of_lt hk,
        Nat.modEq_zero_iff_dvd]
    -- the multiples of `16 ^ l` are counted
    have hsplit : (2 : ℕ) ^ 32 = 2 ^ (4 * l) * 2 ^ (32 - 4 * l) := by
      rw [← pow_add]
      congr 1
      omega
    have hpos : 0 < 2 ^ (4 * l) := Nat.two_pow_pos _
    rw [Nat.count_eq_card_filter_range,
      Finset.filter_congr fun k hk => hiff k (Finset.mem_range.mp hk),
        ← Nat.count_eq_card_filter_range, Nat.count_modEq_card _ hpos, hsplit,
        Nat.mul_div_cancel_left _ hpos,
      Nat.mul_mod_right, Nat.zero_mod, if_neg (Nat.lt_irrefl 0), Nat.add_zero]
  · intro random
    have hlt : random.toNat < 2 ^ 32 := random.isLt
    constructor
    · intro h
      have hdvd := (lt_pidSlRandomLevel_iff random (by decide)).mp h
      have hzero : random = 0 := BitVec.eq_of_toNat_eq (Nat.eq_zero_of_dvd_of_lt hdvd hlt)
      refine ⟨hzero, ?_⟩
      rw [hzero]
      rfl
    · rintro ⟨-, h⟩
      rw [h]
      decide

end KernelPid
