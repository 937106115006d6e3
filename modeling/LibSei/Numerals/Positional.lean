-- SUMMARY: Numbers written in a base, digit by digit, and when the next digit takes a number past a limit.
import Mathlib.Algebra.Order.Group.Nat
import Mathlib.Tactic.Ring

/-!
# Positional numerals

The value of a list of digits, the most significant one first, as a left-to-right reader builds it
up. The quotient and the remainder of a limit by the base tell before a digit is taken whether the
limit would be passed.
-/

namespace Numerals

variable {b v d M : Nat} {ds es : List Nat}

/-- The value of the digits in base `b`. -/
def value (b : Nat) (ds : List Nat) : Nat := ds.foldl (fun v d => v * b + d) 0

@[simp] theorem value_nil : value b [] = 0 := rfl

theorem value_snoc : value b (ds ++ [d]) = value b ds * b + d := by
  rw [value, List.foldl_append]
  rfl

theorem value_le_snoc (hb : 0 < b) : value b ds ≤ value b (ds ++ [d]) := by
  rw [value_snoc]
  exact Nat.le_add_right_of_le (Nat.le_mul_of_pos_right _ hb)

/-- The next digit takes the number past the limit. -/
theorem exceeds_iff (hd : d < b) : M < v * b + d ↔ M / b < v ∨ v = M / b ∧ M % b < d := by
  have hM : M = M / b * b + M % b := (Nat.div_add_mod' M b).symm
  have hr : M % b < b := Nat.mod_lt M (by omega)
  rcases Nat.lt_trichotomy v (M / b) with hlt | heq | hgt
  · have hstep : (v + 1) * b ≤ M / b * b := Nat.mul_le_mul_right b hlt
    rw [Nat.add_mul, Nat.one_mul] at hstep
    constructor
    · intro h
      omega
    · rintro (h | ⟨h, _⟩) <;> omega
  · rw [heq]
    constructor
    · intro h
      exact .inr ⟨rfl, by omega⟩
    · rintro (h | ⟨_, h⟩) <;> omega
  · have hstep : (M / b + 1) * b ≤ v * b := Nat.mul_le_mul_right b hgt
    rw [Nat.add_mul, Nat.one_mul] at hstep
    exact iff_of_true (by omega) (.inl hgt)

end Numerals
