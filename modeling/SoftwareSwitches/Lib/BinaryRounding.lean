import SoftwareSwitches.Lib.SignificantDigits

/-!
# Rounding a rational to `p` significant bits

The binary case of rounding to significant digits, which is what a floating-point unit
does.  The relative error is at most `2^(-p)`, and an integer below `2^p` in magnitude
is left alone.
-/

namespace SoftwareSwitches.Lib.BinaryRounding

open SoftwareSwitches.Lib.SignificantDigits

def lastBitExponent (p : ℕ) (x : ℚ) : ℤ := lastDigitExponent 2 p x

def roundBits (p : ℕ) (x : ℚ) : ℚ := roundDigits 2 p x

@[simp] theorem roundBits_zero (p : ℕ) : roundBits p 0 = 0 := roundDigits_zero 2 p

theorem roundBits_roundBits {p : ℕ} (hp : 0 < p) (x : ℚ) :
    roundBits p (roundBits p x) = roundBits p x :=
  roundDigits_roundDigits Nat.one_lt_two hp x

theorem roundBits_of_ne_zero (p : ℕ) {x : ℚ} (hx : x ≠ 0) :
    roundBits p x = roundHalfEven (x / 2 ^ lastBitExponent p x) * 2 ^ lastBitExponent p x := by
  rw [roundBits, roundDigits, if_neg hx]
  rfl

theorem pow_lastBitExponent_le (p : ℕ) {x : ℚ} (hx : x ≠ 0) :
    (2 : ℚ) ^ lastBitExponent p x ≤ 2 * 2 ^ (-(p : ℤ)) * |x| := by
  have hlog : ((2 : ℕ) : ℚ) ^ Int.log 2 |x| ≤ |x| :=
    Int.zpow_log_le_self (by norm_num) (abs_pos.mpr hx)
  have hsplit : lastBitExponent p x = Int.log 2 |x| + (1 + -(p : ℤ)) := by
    unfold lastBitExponent lastDigitExponent
    ring
  calc (2 : ℚ) ^ lastBitExponent p x
      = 2 ^ Int.log 2 |x| * (2 * 2 ^ (-(p : ℤ))) := by
        rw [hsplit, zpow_add₀ (by norm_num), zpow_add₀ (by norm_num), zpow_one]
    _ ≤ |x| * (2 * 2 ^ (-(p : ℤ))) := by
        apply mul_le_mul_of_nonneg_right _ (by positivity)
        simpa using hlog
    _ = 2 * 2 ^ (-(p : ℤ)) * |x| := by ring

theorem abs_roundBits_sub_le_half_bit (p : ℕ) {x : ℚ} (hx : x ≠ 0) :
    |roundBits p x - x| ≤ 1 / 2 * 2 ^ lastBitExponent p x :=
  abs_roundDigits_sub_le_half_digit Nat.one_lt_two p hx

theorem abs_roundBits_sub_le (p : ℕ) (x : ℚ) :
    |roundBits p x - x| ≤ 2 ^ (-(p : ℤ)) * |x| := by
  by_cases hx : x = 0
  · simp [hx]
  calc |roundBits p x - x|
      ≤ 1 / 2 * 2 ^ lastBitExponent p x := abs_roundBits_sub_le_half_bit p hx
    _ ≤ 1 / 2 * (2 * 2 ^ (-(p : ℤ)) * |x|) := by
        exact mul_le_mul_of_nonneg_left (pow_lastBitExponent_le p hx) (by norm_num)
    _ = 2 ^ (-(p : ℤ)) * |x| := by ring

theorem abs_roundBits_sub_le_of_lt (p : ℕ) {k : ℤ} {x : ℚ} (hlt : |x| < 2 ^ k) :
    |roundBits p x - x| ≤ 1 / 2 * 2 ^ (k - (p : ℤ)) := by
  by_cases hx : x = 0
  · simp only [hx, roundBits_zero, sub_self, abs_zero]
    positivity
  have hexp : lastBitExponent p x ≤ k - p :=
    lastDigitExponent_le_of_lt Nat.one_lt_two p hx (by exact_mod_cast hlt)
  have hpow : (2 : ℚ) ^ lastBitExponent p x ≤ 2 ^ (k - (p : ℤ)) :=
    zpow_le_zpow_right₀ (by norm_num) hexp
  have herror := abs_roundBits_sub_le_half_bit p hx
  linarith

theorem two_zpow_neg_le_half {p : ℕ} (hp : 0 < p) : (2 : ℚ) ^ (-(p : ℤ)) ≤ 1 / 2 := by
  have hle : (2 : ℚ) ^ (-(p : ℤ)) ≤ 2 ^ (-1 : ℤ) :=
    zpow_le_zpow_right₀ (by norm_num) (by omega)
  simpa using hle

theorem roundBits_pos {p : ℕ} (hp : 0 < p) {x : ℚ} (hx : 0 < x) : 0 < roundBits p x := by
  have herror := abs_roundBits_sub_le p x
  have hhalf := mul_le_mul_of_nonneg_right (two_zpow_neg_le_half hp) (abs_nonneg x)
  rw [abs_of_pos hx] at herror hhalf
  have hlow := (abs_le.mp herror).1
  linarith

theorem roundBits_neg {p : ℕ} (hp : 0 < p) {x : ℚ} (hx : x < 0) : roundBits p x < 0 := by
  have herror := abs_roundBits_sub_le p x
  have hhalf := mul_le_mul_of_nonneg_right (two_zpow_neg_le_half hp) (abs_nonneg x)
  rw [abs_of_neg hx] at herror hhalf
  have hhigh := (abs_le.mp herror).2
  linarith

theorem roundBits_intCast {p : ℕ} {n : ℤ} (hlt : |n| < 2 ^ p) :
    roundBits p (n : ℚ) = n := by
  have h := roundDigits_intCast_mul_zpow Nat.one_lt_two (p := p) hlt 0
  rw [zpow_zero, mul_one] at h
  exact h

theorem lastBitExponent_add_le {p : ℕ} {j : ℤ} {x y : ℚ} (hy : y ≠ 0)
    (h : 2 ^ j * |y| ≤ |x|) : lastBitExponent p y + j ≤ lastBitExponent p x := by
  have hlog : ((2 : ℕ) : ℚ) ^ Int.log 2 |y| ≤ |y| :=
    Int.zpow_log_le_self (by norm_num) (abs_pos.mpr hy)
  have hx : 0 < |x| := lt_of_lt_of_le (by positivity) h
  have hpow : ((2 : ℕ) : ℚ) ^ (Int.log 2 |y| + j) ≤ |x| := by
    push_cast at hlog ⊢
    calc (2 : ℚ) ^ (Int.log 2 |y| + j) = 2 ^ j * 2 ^ Int.log 2 |y| := by
          rw [add_comm, zpow_add₀ (by norm_num)]
      _ ≤ 2 ^ j * |y| := mul_le_mul_of_nonneg_left hlog (by positivity)
      _ ≤ |x| := h
  have hle := (Int.zpow_le_iff_le_log (b := 2) (by norm_num) hx).mp hpow
  unfold lastBitExponent lastDigitExponent
  omega

/-- A number of `p` bits below `2^p` is at least its last bit away from any other
integer. -/
theorem pow_lastBitExponent_le_abs_sub {p : ℕ} {x : ℚ} {n : ℤ} (hx : x ≠ 0)
    (hbits : roundBits p x = x) (hlt : |x| < 2 ^ p) (hne : x ≠ n) :
    (2 : ℚ) ^ lastBitExponent p x ≤ |x - n| := by
  have hunit : (0 : ℚ) < 2 ^ lastBitExponent p x := by positivity
  have hexp : lastBitExponent p x ≤ (p : ℤ) - p :=
    lastDigitExponent_le_of_lt Nat.one_lt_two p hx (by exact_mod_cast hlt)
  rw [sub_self] at hexp
  obtain ⟨k, hk⟩ := Int.exists_eq_neg_ofNat hexp
  rw [roundBits_of_ne_zero p hx] at hbits
  have hscale : (2 : ℚ) ^ k * 2 ^ lastBitExponent p x = 1 := by
    rw [hk, zpow_neg, zpow_natCast]
    exact mul_inv_cancel₀ (by positivity)
  have hwhole : x - n = ((roundHalfEven (x / 2 ^ lastBitExponent p x) - n * 2 ^ k : ℤ) : ℚ) *
      2 ^ lastBitExponent p x := by
    push_cast
    rw [sub_mul, hbits, mul_assoc, hscale, mul_one]
  have hinteger : roundHalfEven (x / 2 ^ lastBitExponent p x) - n * 2 ^ k ≠ 0 := by
    intro hzero
    rw [hzero, Int.cast_zero, zero_mul, sub_eq_zero] at hwhole
    exact hne hwhole
  have hone : (1 : ℚ) ≤
      |((roundHalfEven (x / 2 ^ lastBitExponent p x) - n * 2 ^ k : ℤ) : ℚ)| := by
    exact_mod_cast Int.one_le_abs hinteger
  rw [hwhole, abs_mul, abs_of_pos hunit]
  exact le_mul_of_one_le_left hunit.le hone

end SoftwareSwitches.Lib.BinaryRounding
