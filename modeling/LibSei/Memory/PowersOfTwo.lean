-- SUMMARY: Rounding up to a power of two by spreading the highest bit downwards, and the logarithm by counting shifts.
import Mathlib.Data.Nat.Log
import Mathlib.Data.Nat.Size
import Mathlib.Tactic

/-!
# Rounding up to a power of two

Or-ing a number with itself shifted by 1, 2, 4, … sets every bit below its highest one. What is
left is one less than the next power of two.
-/

namespace Arithmetic

variable {x y m i : Nat}

/-- Each bit of `y` says whether one of the `m` bits of `x` from there on is set. -/
def Spread (m x y : Nat) : Prop := ∀ i, y.testBit i = true ↔ ∃ j < m, x.testBit (i + j) = true

theorem spread_one (x : Nat) : Spread 1 x x := by
  intro i
  exact ⟨fun h => ⟨0, by omega, h⟩, fun ⟨j, hj, h⟩ => by rwa [Nat.lt_one_iff.mp hj] at h⟩

/-- A shift by the number of bits seen doubles it. -/
theorem Spread.double (h : Spread m x y) : Spread (2 * m) x (y ||| y >>> m) := by
  intro i
  rw [Nat.testBit_or, Bool.or_eq_true, Nat.testBit_shiftRight, h i, h (m + i)]
  constructor
  · rintro (⟨j, hj, hbit⟩ | ⟨j, hj, hbit⟩)
    · exact ⟨j, by omega, hbit⟩
    · exact ⟨m + j, by omega, by rwa [← Nat.add_assoc, Nat.add_comm i m]⟩
  · rintro ⟨j, hj, hbit⟩
    by_cases hlow : j < m
    · exact .inl ⟨j, hlow, hbit⟩
    · refine .inr ⟨j - m, by omega, ?_⟩
      rwa [show m + i + (j - m) = i + j by omega]

/-- When all bits are seen, the bits below the highest one are set. -/
theorem Spread.eq_two_pow_size (h : Spread m x y) (hx : x < 2 ^ m) : y = 2 ^ x.size - 1 := by
  apply Nat.eq_of_testBit_eq
  intro i
  rw [Bool.eq_iff_iff, Nat.testBit_two_pow_sub_one, decide_eq_true_eq, h i]
  constructor
  · rintro ⟨j, -, hbit⟩
    have hlt : i + j < x.size := by
      by_contra hge
      have hsmall : x < 2 ^ (i + j) := Nat.size_le.mp (not_lt.mp hge)
      rw [Nat.testBit_lt_two_pow hsmall] at hbit
      cases hbit
    omega
  · intro hi
    -- The highest bit is at or above `i`.
    have hle : 2 ^ i ≤ x := Nat.lt_size.mp hi
    obtain ⟨k, hk, hbit⟩ := Nat.exists_ge_and_testBit_of_ge_two_pow hle
    have hkm : k < m := by
      by_contra hge
      rw [Nat.testBit_lt_two_pow (lt_of_lt_of_le hx (Nat.pow_le_pow_right (by decide) (not_lt.mp hge)))]
        at hbit
      cases hbit
    exact ⟨k - i, by omega, by rwa [Nat.add_sub_cancel' hk]⟩

/-- The size of `v - 1` is the logarithm of `v`, rounded up. -/
theorem size_pred_eq_clog {v : Nat} (hv : 1 ≤ v) : (v - 1).size = Nat.clog 2 v := by
  apply le_antisymm
  · rw [Nat.size_le]
    have hle := Nat.le_pow_clog (b := 2) (by decide) v
    omega
  · rw [Nat.clog_le_iff_le_pow (by decide)]
    have hlt := Nat.size_le.mp (le_refl (v - 1).size)
    omega

end Arithmetic
