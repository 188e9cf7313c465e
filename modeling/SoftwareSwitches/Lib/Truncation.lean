import Mathlib.Data.Rat.Floor
import Mathlib.Tactic.FieldSimp
import Mathlib.Tactic.NormNum
import Mathlib.Tactic.Positivity
import Mathlib.Tactic.Ring

/-!
# Truncation to a fixed number of decimals

A calculator that keeps `k` decimals cuts each quotient towards zero.  On
quotients of natural numbers this is an integer division of the scaled
numerator, which is the form the bounds below are stated in.
-/

namespace SoftwareSwitches.Lib.Truncation

def truncate (k : ℕ) (x : ℚ) : ℚ :=
  (if 0 ≤ x then ⌊x * 10 ^ k⌋ else ⌈x * 10 ^ k⌉ : ℤ) / 10 ^ k

theorem truncate_natCast_div (k a b : ℕ) :
    truncate k ((a : ℚ) / b) = ((10 ^ k * a / b : ℕ) : ℚ) / 10 ^ k := by
  have hscaled : (a : ℚ) / b * 10 ^ k = ((10 ^ k * a : ℕ) : ℤ) / (b : ℕ) := by
    push_cast
    ring
  rw [truncate, if_pos (by positivity), hscaled, Rat.floor_intCast_div_natCast,
    ← Int.natCast_div, Int.cast_natCast]

/-- Dividing an already truncated quotient truncates the scaled integer again. -/
theorem truncate_truncated_div (k n b : ℕ) :
    truncate k ((n : ℚ) / 10 ^ k / b) = ((n / b : ℕ) : ℚ) / 10 ^ k := by
  have hflat : (n : ℚ) / 10 ^ k / b = (n : ℚ) / ((10 ^ k * b : ℕ) : ℚ) := by
    push_cast
    rw [div_div]
  rw [hflat, truncate_natCast_div, Nat.mul_div_mul_left _ _ (by positivity)]

end SoftwareSwitches.Lib.Truncation
