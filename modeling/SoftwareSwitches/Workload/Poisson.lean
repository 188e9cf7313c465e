import SoftwareSwitches.Workload.Scripts
import Mathlib.Tactic.Linarith
import Mathlib.Algebra.Order.Field.Basic
import Mathlib.Data.Rat.Cast.Order

/-!
# The mean gap of the Poisson pipeline

`poisson.sh` turns a wire load into a packet rate with two truncating divisions,
`poisson-test.sh` passes it on, and `loadSlave` of `l2-poisson-load-latency.lua`
turns it into a mean gap with a reciprocal.  Everything the pipeline is meant to
guarantee holds as soon as the rate survives the truncations.
-/

namespace SoftwareSwitches.Workload

open SoftwareSwitches.Lib.Truncation

/-- Argument of `poissonDelay` in `loadSlave`: bytes between two packets of a
10 Gbit/s link, less the packet with its CRC, preamble and gap.  At rate zero, where
Lua has `inf`, the value means nothing: results about it ask for a positive rate. -/
def meanDelay (rate size : ℚ) : ℚ := 10 ^ 10 / 8 / (rate * 10 ^ 6) - size - 24

/-- The rate that reaches `loadSlave`, in hundredths of a Mpps. -/
def poissonHundredths (R S : ℕ) : ℕ := 100 * R / (S + 20) / 8

theorem poissonRate_eq (R S : ℕ) : poissonRate R S = (poissonHundredths R S : ℚ) / 100 := by
  have hfirst : truncate 2 ((R : ℚ) / (S + 20)) = ((100 * R / (S + 20) : ℕ) : ℚ) / 10 ^ 2 := by
    have h := truncate_natCast_div 2 R (S + 20)
    push_cast at h ⊢
    simpa using h
  have hsecond := truncate_truncated_div 2 (100 * R / (S + 20)) 8
  rw [poissonRate, hfirst, poissonHundredths]
  norm_num at hsecond ⊢
  exact hsecond

theorem poissonHundredths_pos_iff (R S : ℕ) :
    0 < poissonHundredths R S ↔ 2 * (S + 20) ≤ 25 * R := by
  unfold poissonHundredths
  rw [Nat.div_div_eq_div_mul, Nat.div_pos_iff]
  omega

theorem poissonHundredths_bounds (R S : ℕ) :
    8 * poissonHundredths R S * (S + 20) ≤ 100 * R ∧
      100 * R < 8 * (poissonHundredths R S + 1) * (S + 20) := by
  unfold poissonHundredths
  rw [Nat.div_div_eq_div_mul]
  have hlow := Nat.div_mul_le_self (100 * R) ((S + 20) * 8)
  have hhigh := Nat.lt_div_mul_add (a := 100 * R) (b := (S + 20) * 8) (by omega)
  constructor <;> nlinarith

/-- What the pipeline is meant to guarantee at `R` and `S`, for a call of MoonGen
with the given rate and size: the rate is positive, the mean gap is legal, and
the rate stands for the requested load up to the truncation. -/
def PoissonLegal (rate size : ℚ) (R S : ℕ) : Prop :=
  0 < rate ∧ 0 ≤ meanDelay rate size ∧ 8 * rate * (S + 20) ≤ R ∧
    R - 9 / 100 * (S + 20) < 8 * rate * (S + 20)

theorem meanDelay_add {rate : ℚ} (hrate : 0 < rate) (size : ℚ) :
    meanDelay rate size + size + 24 = 1250 / rate := by
  have hslot : 10 ^ 10 / 8 / (rate * 10 ^ 6) = 1250 / rate := by
    field_simp
    norm_num
  rw [meanDelay, hslot]
  ring

theorem meanDelay_nonneg {rate : ℚ} {R S : ℕ} (hrate : 0 < rate) (hR : R ≤ 10000)
    (hS : S < 2 ^ 63) (hload : 8 * rate * (S + 20) ≤ R) :
    0 ≤ meanDelay rate (frameSize S) := by
  have hR' : (R : ℚ) ≤ 10000 := by exact_mod_cast hR
  have hframe : (S : ℚ) + 20 ≤ 1250 / rate := by
    rw [le_div_iff₀ hrate]
    linarith
  have hsize : frameSize S = (S : ℤ) - 4 := Int.bmod_eq_of_le (by omega) (by omega)
  have hslot := meanDelay_add hrate (frameSize S)
  rw [hsize] at hslot ⊢
  push_cast at hslot ⊢
  linarith

/-- The pipeline is legal exactly when the load is at least 0.08 Mbit/s for every
byte a frame takes on the wire. -/
theorem poisson_legal_iff (sw : Switch) (hsw : sw ≠ .ovsDpdk) (R S : ℕ)
    (hR : R ≤ 10000) :
    (∃ call size, (experiment sw .poisson (some R) (some S) none).call = some call ∧
        call.size = some size ∧ PoissonLegal call.rate size R S) ↔
      2 * (S + 20) ≤ 25 * R := by
  have hcall := call_poisson hsw (some R) (some S) none
  constructor
  · rintro ⟨call, size, heq, _, hlegal⟩
    rw [hcall] at heq
    cases heq
    have hrate : (0 : ℚ) < poissonRate R S := hlegal.1
    rw [poissonRate_eq] at hrate
    have hpos : (0 : ℚ) < poissonHundredths R S := by linarith
    rw [← poissonHundredths_pos_iff]
    exact_mod_cast hpos
  · intro hfits
    have hpos := (poissonHundredths_pos_iff R S).mpr hfits
    refine ⟨_, _, hcall, rfl, ?_⟩
    obtain ⟨hlow, hhigh⟩ := poissonHundredths_bounds R S
    have hpos' : (0 : ℚ) < poissonHundredths R S := by exact_mod_cast hpos
    have hlow' : 8 * (poissonHundredths R S : ℚ) * (S + 20) ≤ 100 * R := by
      exact_mod_cast hlow
    have hhigh' : (100 : ℚ) * R < 8 * (poissonHundredths R S + 1) * (S + 20) := by
      exact_mod_cast hhigh
    have hS : (0 : ℚ) ≤ S := by positivity
    have hrate : (0 : ℚ) < poissonRate R S := by
      rw [poissonRate_eq]
      positivity
    have hload : 8 * poissonRate R S * (S + 20) ≤ R := by
      rw [poissonRate_eq]
      linarith
    have hsize : S < 2 ^ 63 := by omega
    refine ⟨hrate, meanDelay_nonneg hrate hR hsize hload, hload, ?_⟩
    change (R : ℚ) - 9 / 100 * (S + 20) < 8 * poissonRate R S * (S + 20)
    rw [poissonRate_eq]
    linarith

theorem poisson_legal_10000_64 :
    ∃ call size, (experiment .fastclick .poisson (some 10000) (some 64) none).call =
        some call ∧ call.size = some size ∧ PoissonLegal call.rate size 10000 64 :=
  (poisson_legal_iff .fastclick (by decide) 10000 64 (by decide)).mpr (by decide)

theorem not_poisson_legal_1_64 :
    ¬ ∃ call size, (experiment .fastclick .poisson (some 1) (some 64) none).call =
        some call ∧ call.size = some size ∧ PoissonLegal call.rate size 1 64 := by
  rintro ⟨call, size, heq, _, hlegal⟩
  rw [call_poisson (by decide)] at heq
  cases heq
  have hrate : (0 : ℚ) < poissonRate 1 64 := hlegal.1
  rw [poissonRate_eq] at hrate
  exact absurd hrate (by decide +kernel)

end SoftwareSwitches.Workload
