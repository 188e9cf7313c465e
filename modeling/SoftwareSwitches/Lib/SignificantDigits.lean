import Mathlib.Data.Int.Log
import Mathlib.Data.Rat.Floor
import Mathlib.Algebra.Order.Field.Power
import Mathlib.Tactic.FieldSimp
import Mathlib.Tactic.Linarith
import Mathlib.Tactic.NormNum
import Mathlib.Tactic.Positivity
import Mathlib.Tactic.Ring

/-!
# Rounding a rational to `p` significant digits

In base `b` a number of `p` digits is an integer below `b ^ p` times a power of `b`.
This module rounds an exact rational to such a number, to nearest with ties to even,
and shows that these numbers are exactly the ones the rounding leaves alone.

The exponent range is unbounded, so overflow and subnormal numbers play no role.
-/

namespace SoftwareSwitches.Lib.SignificantDigits

/-! ## Rounding to an integer -/

def roundHalfEven (x : ℚ) : ℤ :=
  if x - ⌊x⌋ < 1 / 2 then ⌊x⌋
  else if 1 / 2 < x - ⌊x⌋ then ⌊x⌋ + 1
  else if ⌊x⌋ % 2 = 0 then ⌊x⌋
  else ⌊x⌋ + 1

theorem abs_roundHalfEven_sub_le (x : ℚ) :
    |(roundHalfEven x : ℚ) - x| ≤ 1 / 2 := by
  have hlow : (⌊x⌋ : ℚ) ≤ x := Int.floor_le x
  have hhigh : x < ⌊x⌋ + 1 := Int.lt_floor_add_one x
  unfold roundHalfEven
  split_ifs with hbelow habove heven
  all_goals
    rw [abs_le]
    push_cast
    constructor <;> linarith

@[simp] theorem roundHalfEven_intCast (n : ℤ) : roundHalfEven (n : ℚ) = n := by
  simp [roundHalfEven]

theorem le_roundHalfEven {n : ℤ} {x : ℚ} (h : (n : ℚ) ≤ x) : n ≤ roundHalfEven x := by
  have herror := (abs_le.mp (abs_roundHalfEven_sub_le x)).1
  have hlt : (n : ℚ) < roundHalfEven x + 1 := by linarith
  exact Int.lt_add_one_iff.mp (by exact_mod_cast hlt)

theorem roundHalfEven_le {n : ℤ} {x : ℚ} (h : x ≤ n) : roundHalfEven x ≤ n := by
  have herror := (abs_le.mp (abs_roundHalfEven_sub_le x)).2
  have hlt : (roundHalfEven x : ℚ) < n + 1 := by linarith
  exact Int.lt_add_one_iff.mp (by exact_mod_cast hlt)

theorem roundHalfEven_neg (x : ℚ) : roundHalfEven (-x) = -roundHalfEven x := by
  by_cases hwhole : (⌊x⌋ : ℚ) = x
  · rw [← hwhole, ← Int.cast_neg, roundHalfEven_intCast, roundHalfEven_intCast]
  have hfloor : ⌊-x⌋ = -⌊x⌋ - 1 := by
    have hlow : (⌊x⌋ : ℚ) < x := lt_of_le_of_ne (Int.floor_le x) hwhole
    have hhigh : x < ⌊x⌋ + 1 := Int.lt_floor_add_one x
    rw [Int.floor_eq_iff]
    push_cast
    constructor <;> linarith
  unfold roundHalfEven
  rw [hfloor]
  push_cast
  split_ifs <;> first | omega | (exfalso; linarith)

/-! ## Rounding to `p` digits -/

/-- Exponent of the last of the `p` significant digits of `x`. -/
def lastDigitExponent (b p : ℕ) (x : ℚ) : ℤ := Int.log b |x| - ((p : ℤ) - 1)

def roundDigits (b p : ℕ) (x : ℚ) : ℚ :=
  if x = 0 then 0
  else roundHalfEven (x / b ^ lastDigitExponent b p x) * b ^ lastDigitExponent b p x

@[simp] theorem roundDigits_zero (b p : ℕ) : roundDigits b p 0 = 0 := by
  simp [roundDigits]

theorem lastDigitExponent_neg (b p : ℕ) (x : ℚ) :
    lastDigitExponent b p (-x) = lastDigitExponent b p x := by
  rw [lastDigitExponent, abs_neg, lastDigitExponent]

theorem roundDigits_neg (b p : ℕ) (x : ℚ) : roundDigits b p (-x) = -roundDigits b p x := by
  by_cases hx : x = 0
  · simp [hx]
  · rw [roundDigits, if_neg (neg_ne_zero.mpr hx), lastDigitExponent_neg, neg_div,
      roundHalfEven_neg, roundDigits, if_neg hx]
    push_cast
    ring

section Base

variable {b p : ℕ} (hb : 1 < b)

include hb

theorem zpow_pos_of_one_lt (k : ℤ) : (0 : ℚ) < (b : ℚ) ^ k := by
  have hbase : (0 : ℚ) < b := by exact_mod_cast (Nat.zero_lt_of_lt hb)
  exact zpow_pos hbase k

theorem abs_roundDigits_sub_le_half_digit (p : ℕ) {x : ℚ} (hx : x ≠ 0) :
    |roundDigits b p x - x| ≤ 1 / 2 * (b : ℚ) ^ lastDigitExponent b p x := by
  have hunit := zpow_pos_of_one_lt hb (lastDigitExponent b p x)
  have hsteps := abs_roundHalfEven_sub_le (x / b ^ lastDigitExponent b p x)
  have hscale : roundDigits b p x - x =
      ((roundHalfEven (x / b ^ lastDigitExponent b p x) : ℚ) -
        x / b ^ lastDigitExponent b p x) * b ^ lastDigitExponent b p x := by
    rw [roundDigits, if_neg hx, sub_mul, div_mul_cancel₀ _ hunit.ne']
  rw [hscale, abs_mul, abs_of_pos hunit]
  exact mul_le_mul_of_nonneg_right hsteps hunit.le

theorem lastDigitExponent_le_of_lt (p : ℕ) {k : ℤ} {x : ℚ} (hx : x ≠ 0)
    (hlt : |x| < (b : ℚ) ^ k) : lastDigitExponent b p x ≤ k - p := by
  have hlog : Int.log b |x| < k := (Int.lt_zpow_iff_log_lt hb (abs_pos.mpr hx)).mp hlt
  unfold lastDigitExponent
  omega

theorem abs_div_zpow_lastDigitExponent (p : ℕ) {x : ℚ} (hx : x ≠ 0) :
    (b : ℚ) ^ ((p : ℤ) - 1) ≤ |x| / (b : ℚ) ^ lastDigitExponent b p x ∧
      |x| / (b : ℚ) ^ lastDigitExponent b p x < (b : ℚ) ^ p := by
  have hbase : (b : ℚ) ≠ 0 := by exact_mod_cast (Nat.zero_lt_of_lt hb).ne'
  have hunit := zpow_pos_of_one_lt hb (lastDigitExponent b p x)
  have hlog := Int.zpow_log_le_self hb (abs_pos.mpr hx)
  have hlog' := Int.lt_zpow_succ_log_self hb |x|
  rw [le_div_iff₀ hunit, div_lt_iff₀ hunit, ← zpow_natCast, ← zpow_add₀ hbase,
    ← zpow_add₀ hbase]
  constructor
  · have hexp : (p : ℤ) - 1 + lastDigitExponent b p x = Int.log b |x| := by
      unfold lastDigitExponent
      ring
    rw [hexp]
    exact hlog
  · have hexp : (p : ℤ) + lastDigitExponent b p x = Int.log b |x| + 1 := by
      unfold lastDigitExponent
      ring
    rw [hexp]
    exact hlog'

theorem roundDigits_intCast_mul_zpow {n : ℤ} (hn : |n| < b ^ p) (k : ℤ) :
    roundDigits b p (n * (b : ℚ) ^ k) = n * (b : ℚ) ^ k := by
  by_cases hzero : n = 0
  · simp [hzero]
  have hbase : (b : ℚ) ≠ 0 := by exact_mod_cast (Nat.zero_lt_of_lt hb).ne'
  have hpow := zpow_pos_of_one_lt hb k
  have hx : (n : ℚ) * (b : ℚ) ^ k ≠ 0 :=
    mul_ne_zero (by exact_mod_cast hzero) hpow.ne'
  have hlt : |(n : ℚ) * (b : ℚ) ^ k| < (b : ℚ) ^ ((p : ℤ) + k) := by
    rw [abs_mul, abs_of_pos hpow, zpow_add₀ hbase, zpow_natCast]
    have hn' : |(n : ℚ)| < (b : ℚ) ^ p := by exact_mod_cast hn
    exact mul_lt_mul_of_pos_right hn' hpow
  have hle := lastDigitExponent_le_of_lt hb p hx hlt
  set unit := lastDigitExponent b p ((n : ℚ) * (b : ℚ) ^ k)
  obtain ⟨j, hj⟩ : ∃ j : ℕ, k = unit + j := ⟨(k - unit).toNat, by omega⟩
  have hunit := zpow_pos_of_one_lt hb unit
  have hwhole : (n : ℚ) * (b : ℚ) ^ k / (b : ℚ) ^ unit = ((n * b ^ j : ℤ) : ℚ) := by
    rw [hj, zpow_add₀ hbase, zpow_natCast]
    push_cast
    field_simp
  rw [roundDigits, if_neg hx, hwhole, roundHalfEven_intCast, ← hwhole,
    div_mul_cancel₀ _ hunit.ne']

theorem abs_roundHalfEven_div_le (p : ℕ) {x : ℚ} (hx : x ≠ 0) :
    |roundHalfEven (x / (b : ℚ) ^ lastDigitExponent b p x)| ≤ b ^ p := by
  have hunit := zpow_pos_of_one_lt hb (lastDigitExponent b p x)
  have hlt := (abs_div_zpow_lastDigitExponent hb p hx).2
  rw [← abs_of_pos hunit, ← abs_div, abs_lt] at hlt
  rw [abs_le]
  constructor
  · apply le_roundHalfEven
    push_cast
    exact hlt.1.le
  · apply roundHalfEven_le
    push_cast
    exact hlt.2.le

theorem exists_roundDigits_eq (hp : 0 < p) (x : ℚ) :
    ∃ n k : ℤ, |n| < b ^ p ∧ roundDigits b p x = n * (b : ℚ) ^ k := by
  have hbase : (b : ℚ) ≠ 0 := by exact_mod_cast (Nat.zero_lt_of_lt hb).ne'
  have hone : (1 : ℤ) < b ^ p := by
    have : 1 < b ^ p := Nat.one_lt_pow hp.ne' hb
    exact_mod_cast this
  by_cases hx : x = 0
  · exact ⟨0, 0, by simpa using hone.trans' one_pos, by simp [hx]⟩
  have hle := abs_roundHalfEven_div_le hb p hx
  rcases hle.lt_or_eq with hlt | heq
  · exact ⟨_, _, hlt, by rw [roundDigits, if_neg hx]⟩
  · -- Rounding up has carried into one digit more, a one followed by zeros.
    rcases (abs_eq (by positivity)).mp heq with hpos | hneg
    · refine ⟨1, p + lastDigitExponent b p x, by simpa using hone, ?_⟩
      rw [roundDigits, if_neg hx, hpos, zpow_add₀ hbase, zpow_natCast]
      push_cast
      ring
    · refine ⟨-1, p + lastDigitExponent b p x, by simpa using hone, ?_⟩
      rw [roundDigits, if_neg hx, hneg, zpow_add₀ hbase, zpow_natCast]
      push_cast
      ring

theorem roundDigits_eq_self_iff (hp : 0 < p) (x : ℚ) :
    roundDigits b p x = x ↔ ∃ n k : ℤ, |n| < b ^ p ∧ x = n * (b : ℚ) ^ k := by
  constructor
  · intro h
    obtain ⟨n, k, hn, heq⟩ := exists_roundDigits_eq hb hp x
    exact ⟨n, k, hn, h.symm.trans heq⟩
  · rintro ⟨n, k, hn, rfl⟩
    exact roundDigits_intCast_mul_zpow hb hn k

theorem roundDigits_roundDigits (hp : 0 < p) (x : ℚ) :
    roundDigits b p (roundDigits b p x) = roundDigits b p x :=
  (roundDigits_eq_self_iff hb hp _).mpr (exists_roundDigits_eq hb hp x)

/-- A number of `p` digits is what everything closer to it than half a last digit is
rounded to. -/
theorem roundDigits_eq_of_near {x : ℚ} (hx : x ≠ 0) {n k : ℤ}
    (hle : lastDigitExponent b p x ≤ k)
    (hnear : |x - n * (b : ℚ) ^ k| < 1 / 2 * (b : ℚ) ^ lastDigitExponent b p x) :
    roundDigits b p x = n * (b : ℚ) ^ k := by
  have hbase : (b : ℚ) ≠ 0 := by exact_mod_cast (Nat.zero_lt_of_lt hb).ne'
  set unit := lastDigitExponent b p x
  have hunit := zpow_pos_of_one_lt hb unit
  obtain ⟨j, hj⟩ : ∃ j : ℕ, k = unit + j := ⟨(k - unit).toNat, by omega⟩
  have hwhole : (n : ℚ) * (b : ℚ) ^ k = ((n * b ^ j : ℤ) : ℚ) * (b : ℚ) ^ unit := by
    rw [hj, zpow_add₀ hbase, zpow_natCast]
    push_cast
    ring
  have hclose : |x / (b : ℚ) ^ unit - (n * b ^ j : ℤ)| < 1 / 2 := by
    have hsplit : x / (b : ℚ) ^ unit - (n * b ^ j : ℤ) =
        (x - ((n * b ^ j : ℤ) : ℚ) * (b : ℚ) ^ unit) / (b : ℚ) ^ unit := by
      rw [sub_div, mul_div_cancel_right₀ _ hunit.ne']
    rw [hwhole] at hnear
    rw [hsplit, abs_div, abs_of_pos hunit, div_lt_iff₀ hunit]
    exact hnear
  have hround : roundHalfEven (x / (b : ℚ) ^ unit) = n * b ^ j := by
    have herror := abs_le.mp (abs_roundHalfEven_sub_le (x / (b : ℚ) ^ unit))
    have hclose := abs_lt.mp hclose
    have hlow : ((n * b ^ j - 1 : ℤ) : ℚ) < roundHalfEven (x / (b : ℚ) ^ unit) := by
      push_cast at hclose ⊢
      linarith
    have hhigh : (roundHalfEven (x / (b : ℚ) ^ unit) : ℚ) < ((n * b ^ j + 1 : ℤ) : ℚ) := by
      push_cast at hclose ⊢
      linarith
    have hlow' := Int.cast_lt.mp hlow
    have hhigh' := Int.cast_lt.mp hhigh
    omega
  rw [roundDigits, if_neg hx, hround, hwhole]

end Base

end SoftwareSwitches.Lib.SignificantDigits
