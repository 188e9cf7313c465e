import Mathlib.Data.Nat.Bitwise
import Mathlib.Data.Nat.Size

/-!
# Filling the bits below the highest one

`y |= y >> w` doubles the distance over which the bits of `x` have been spread downwards.
Once it covers the whole of `x`, all bits below the highest one are set and the next number
is a power of two.
-/

namespace SoftwareSwitches.Lib.BitFill

/-- Each bit of `x` has been spread over `w` places, its own included. -/
def Filled (x y w : ℕ) : Prop :=
  ∀ i, y.testBit i = true ↔ ∃ j < w, x.testBit (i + j) = true

theorem filled_self (x : ℕ) : Filled x x 1 := by
  intro i
  constructor
  · intro h
    exact ⟨0, by omega, h⟩
  · intro ⟨j, hj, h⟩
    have hzero : j = 0 := by omega
    rwa [hzero] at h

theorem Filled.double {x y w : ℕ} (h : Filled x y w) : Filled x (y ||| y >>> w) (2 * w) := by
  intro i
  rw [Nat.testBit_or, Nat.testBit_shiftRight, Bool.or_eq_true, h i, h (w + i)]
  constructor
  · intro hbit
    rcases hbit with ⟨j, hj, hx⟩ | ⟨j, hj, hx⟩
    · exact ⟨j, by omega, hx⟩
    · refine ⟨w + j, by omega, ?_⟩
      rwa [show i + (w + j) = w + i + j by omega]
  · intro ⟨j, hj, hx⟩
    by_cases hlow : j < w
    · exact Or.inl ⟨j, hlow, hx⟩
    · refine Or.inr ⟨j - w, by omega, ?_⟩
      rwa [show w + i + (j - w) = i + j by omega]

theorem testBit_size_sub_one {x : ℕ} (h : x ≠ 0) : x.testBit (x.size - 1) = true := by
  have hsize : x.size = x.log2 + 1 := by
    apply le_antisymm
    · exact Nat.size_le.mpr Nat.lt_log2_self
    · exact Nat.lt_size.mpr (Nat.log2_self_le h)
  rw [hsize]
  exact Nat.testBit_log2 h

theorem Filled.eq_two_pow {x y w : ℕ} (h : Filled x y w) (hx : x < 2 ^ w) :
    y = 2 ^ x.size - 1 := by
  apply Nat.eq_of_testBit_eq
  intro i
  rw [Nat.testBit_two_pow_sub_one, Bool.eq_iff_iff, h i, decide_eq_true_iff]
  constructor
  · intro ⟨j, _, hbit⟩
    have hle := Nat.lt_size.mpr (Nat.ge_two_pow_of_testBit hbit)
    omega
  · intro hi
    have hne : x ≠ 0 := by
      intro hzero
      simp [hzero] at hi
    have hsize : x.size ≤ w := Nat.size_le.mpr hx
    refine ⟨x.size - 1 - i, by omega, ?_⟩
    rw [show i + (x.size - 1 - i) = x.size - 1 by omega]
    exact testBit_size_sub_one hne

end SoftwareSwitches.Lib.BitFill
