import SoftwareSwitches.Workload.Scripts
import Mathlib.Tactic.Linarith
import Mathlib.Tactic.LinearCombination
import Mathlib.Algebra.Order.Field.Basic
import Mathlib.Data.Rat.Cast.Order

/-!
# The load of the CBR pipeline

`cbr.sh` turns a wire rate into a frame rate, `latency-test.sh` passes it on,
and `master` of `latency-test.lua` limits the load queue to that rate less the
timestamping traffic.  Four quantities decide whether the two tasks together
stay within the requested load: the truncated quotient of the script, the guard
of `master`, the compensation it subtracts, and the minimum size of the packets
that `timerSlave` sends on its own queue.

Rates are in Mbit/s, and Lua's numbers are taken as exact.  `setRate` limits frame
bits including the CRC; a queue on which it was never called sends at `lineRate`.
-/

namespace SoftwareSwitches.Workload

/-- `setRate` argument of `master` in `latency-test.lua`; the guard skips the
call for a rate of zero. -/
def setRateArg (rate size : ℚ) : Option ℚ :=
  if rate > 0 then some (rate - (size + 4) * 8 / 1000) else none

def timerSize (size : ℚ) : ℚ := if size < 84 then 84 else size

/-- Wire load of `loadSlave`: 4 bytes of CRC belong to the frame, 20 more bytes
of preamble and gap only to the wire. -/
def loadSlaveWire (lineRate rate size : ℚ) : ℚ :=
  match setRateArg rate size with
  | some x => x * (size + 4 + 20) / (size + 4)
  | none => lineRate

/-- Wire load of `timerSlave`, at most one packet a millisecond. -/
def timerSlaveWire (size : ℚ) : ℚ := 1000 * ((timerSize size + 24) * 8) / 10 ^ 6

def cbrSetRate (sw : Switch) (R S : ℕ) : Option ℚ := do
  let call ← (experiment sw .cbr (some R) (some S) none).call
  let size ← call.size
  setRateArg call.rate size

def cbrWireLoad (lineRate : ℚ) (sw : Switch) (R S : ℕ) : Option ℚ := do
  let call ← (experiment sw .cbr (some R) (some S) none).call
  let size ← call.size
  return loadSlaveWire lineRate call.rate size + timerSlaveWire size

/-! ## Division in `cbr.sh` -/

def cbrQuotient (R S : ℕ) : ℕ := R * S / (S + 20)

theorem cbrQuotient_mul_add_mod (R S : ℕ) :
    cbrQuotient R S * (S + 20) + R * S % (S + 20) = R * S := by
  unfold cbrQuotient
  rw [Nat.mul_comm]
  exact Nat.div_add_mod (R * S) (S + 20)

theorem cbrQuotient_mono {R R' : ℕ} (S : ℕ) (hR : R ≤ R') :
    cbrQuotient R S ≤ cbrQuotient R' S := by
  unfold cbrQuotient
  exact Nat.div_le_div_right (Nat.mul_le_mul_right S hR)

theorem bashInt_eq_self {n : ℤ} (hlow : -2 ^ 63 ≤ n) (hhigh : n < 2 ^ 63) : bashInt n = n :=
  Int.bmod_eq_of_le (by omega) (by omega)

theorem bashInt_natCast {n : ℕ} (h : n < 2 ^ 63) : bashInt n = n :=
  bashInt_eq_self (by omega) (by omega)

theorem bashInt_lt (n : ℤ) : bashInt n < 2 ^ 63 := by
  have h : bashInt n < (2 ^ 64 + 1) / 2 := Int.bmod_lt (by norm_num)
  omega

theorem le_bashInt (n : ℤ) : -2 ^ 63 ≤ bashInt n := by
  have h : -(2 ^ 64 / 2) ≤ bashInt n := Int.le_bmod (by norm_num)
  omega

theorem bashInt_le_sub {n : ℤ} (hn : 2 ^ 63 ≤ n) : bashInt n ≤ n - 2 ^ 63 := by
  by_cases hhalf : n < 2 ^ 64
  · have hshift : bashInt n = n - 2 ^ 64 := by
      rw [bashInt, ← Int.sub_bmod_right]
      exact Int.bmod_eq_of_le (by push_cast; omega) (by push_cast; omega)
    omega
  · have hlt := bashInt_lt n
    omega

theorem bashInt_le {n : ℤ} (hlow : -2 ^ 63 ≤ n) : bashInt n ≤ n := by
  by_cases hhigh : n < 2 ^ 63
  · exact (bashInt_eq_self hlow hhigh).le
  · have hle := bashInt_le_sub (not_lt.mp hhigh)
    omega

theorem bashInt_tdiv_le (n d : ℤ) : bashInt ((bashInt n).tdiv d) ≤ (bashInt n).tdiv d := by
  apply bashInt_le
  have hlow := le_bashInt n
  have hhigh := bashInt_lt n
  have habs := Int.natAbs_tdiv_le_natAbs (bashInt n) d
  omega

theorem cbrRate_of_lt {R S : ℕ} (hprod : R * S < 2 ^ 63) (hsize : S + 20 < 2 ^ 63) :
    cbrRate R S = some (cbrQuotient R S : ℤ) := by
  have hnum : bashInt ((R : ℤ) * S) = (R * S : ℕ) := by exact_mod_cast bashInt_natCast hprod
  have hden : bashInt ((S : ℤ) + 20) = (S + 20 : ℕ) := by exact_mod_cast bashInt_natCast hsize
  have hquotient : ((R * S : ℕ) : ℤ).tdiv (S + 20 : ℕ) = (cbrQuotient R S : ℕ) :=
    (Int.ofNat_tdiv _ _).symm
  have hle : cbrQuotient R S ≤ R * S := Nat.div_le_self _ _
  rw [cbrRate, hnum, hden, hquotient, if_neg (by omega), bashInt_natCast (by omega)]

/-- Once the product overflows the script falls short of the quotient. -/
theorem lt_cbrQuotient_of_overflow {R S : ℕ} {r : ℤ} (hsize : S + 20 < 2 ^ 63)
    (hprod : 2 ^ 63 ≤ R * S) (hrate : cbrRate R S = some r) : r < cbrQuotient R S := by
  have hden : bashInt ((S : ℤ) + 20) = (S + 20 : ℕ) := by exact_mod_cast bashInt_natCast hsize
  have hnum : bashInt ((R : ℤ) * S) ≤ (R * S - 2 ^ 63 : ℕ) := by
    have hle : bashInt ((R : ℤ) * S) ≤ (R : ℤ) * S - 2 ^ 63 :=
      bashInt_le_sub (by exact_mod_cast hprod)
    rw [Nat.cast_sub hprod]
    exact_mod_cast hle
  have hless : (R * S - 2 ^ 63) / (S + 20) < cbrQuotient R S := by
    rw [cbrQuotient, Nat.div_lt_iff_lt_mul (by omega)]
    have hdivision := Nat.lt_div_mul_add (a := R * S) (b := S + 20) (by omega)
    omega
  rw [cbrRate, hden, if_neg (by omega)] at hrate
  calc r = bashInt ((bashInt ((R : ℤ) * S)).tdiv (S + 20 : ℕ)) := (Option.some.inj hrate).symm
    _ ≤ (bashInt ((R : ℤ) * S)).tdiv (S + 20 : ℕ) := bashInt_tdiv_le _ _
    _ ≤ ((R * S - 2 ^ 63 : ℕ) : ℤ).tdiv (S + 20 : ℕ) := Int.tdiv_le_tdiv (by omega) hnum
    _ = ((R * S - 2 ^ 63) / (S + 20) : ℕ) := (Int.ofNat_tdiv _ _).symm
    _ < cbrQuotient R S := by exact_mod_cast hless

theorem cbrRate_le_one {R S : ℕ} {r : ℤ} (hlow : 2 ^ 63 ≤ S + 20) (hhigh : S < 2 ^ 63 + 4)
    (hrate : cbrRate R S = some r) : r ≤ 1 := by
  have hden : bashInt ((S : ℤ) + 20) = S + 20 - 2 ^ 64 := by
    rw [bashInt, ← Int.sub_bmod_right]
    exact Int.bmod_eq_of_le (by push_cast; omega) (by push_cast; omega)
  have hlow' := le_bashInt ((R : ℤ) * S)
  have hhigh' := bashInt_lt ((R : ℤ) * S)
  have habs : ((bashInt ((R : ℤ) * S)).tdiv (S + 20 - 2 ^ 64)).natAbs ≤ 1 := by
    rw [Int.natAbs_tdiv]
    apply Nat.lt_add_one_iff.mp
    apply Nat.div_lt_of_lt_mul
    omega
  have hle := bashInt_tdiv_le ((R : ℤ) * S) (S + 20 - 2 ^ 64)
  rw [cbrRate, hden, if_neg (by omega)] at hrate
  have heq := Option.some.inj hrate
  omega

/-! ## The arguments that reach `master` -/

theorem cbrSetRate_eq (sw : Switch) (R S : ℕ) :
    cbrSetRate sw R S = (cbrRate R S).bind fun r : ℤ => setRateArg r (frameSize S) := by
  cases hr : cbrRate R S <;> simp [cbrSetRate, call_cbr, hr]

theorem cbrWireLoad_eq (lineRate : ℚ) (sw : Switch) (R S : ℕ) :
    cbrWireLoad lineRate sw R S = (cbrRate R S).map fun r : ℤ =>
      loadSlaveWire lineRate r (frameSize S) + timerSlaveWire (frameSize S) := by
  cases hr : cbrRate R S <;> simp [cbrWireLoad, call_cbr, hr]

theorem frameSize_eq {S : ℕ} (hS : 64 ≤ S) (hsize : S + 20 < 2 ^ 63) :
    frameSize S = (S - 4 : ℕ) := by
  rw [frameSize, bashInt_eq_self (by omega) (by omega)]
  omega

theorem frameSize_add_crc {S : ℕ} (hsize : S + 20 < 2 ^ 63) : (frameSize S : ℚ) + 4 = S := by
  have h : frameSize S = (S : ℤ) - 4 := bashInt_eq_self (by omega) (by omega)
  rw [h]
  push_cast
  ring

theorem setRateArg_eq_some {r : ℤ} {S : ℕ} {x : ℚ} (hsize : S + 20 < 2 ^ 63) :
    setRateArg r (frameSize S) = some x ↔ 0 < r ∧ x = r - S * 8 / 1000 := by
  unfold setRateArg
  rw [frameSize_add_crc hsize]
  split_ifs with hr
  · have hpos : 0 < r := by exact_mod_cast hr
    simp [hpos, eq_comm]
  · have hzero : ¬ 0 < r := by exact_mod_cast hr
    simp [hzero]

theorem limit_pos_iff (R S : ℕ) :
    (0 : ℚ) < cbrQuotient R S - S * 8 / 1000 ↔ (8 * S / 1000 + 1) * (S + 20) ≤ R * S := by
  have hcast : (0 : ℚ) < cbrQuotient R S - S * 8 / 1000 ↔ 8 * S < cbrQuotient R S * 1000 := by
    rw [sub_pos, div_lt_iff₀ (by norm_num), mul_comm]
    norm_cast
  rw [hcast, ← Nat.div_lt_iff_lt_mul (by norm_num), Nat.lt_iff_add_one_le]
  exact Nat.le_div_iff_mul_le (by omega)

theorem timerSlaveWire_eq {S : ℕ} (hsize : S + 20 < 2 ^ 63) :
    timerSlaveWire (frameSize S) = ((S + (88 - S : ℕ) : ℚ) + 20) * 8 / 1000 := by
  have htimer : timerSize (frameSize S) = (S + (88 - S : ℕ) : ℚ) - 4 := by
    unfold timerSize
    have hcrc := frameSize_add_crc hsize
    split_ifs with hsmall
    · have hlt : S < 88 := by
        have : (S : ℚ) < 88 := by linarith
        exact_mod_cast this
      rw [Nat.cast_sub hlt.le]
      push_cast
      ring
    · have hge : 88 ≤ S := by
        have : (88 : ℚ) ≤ S := by linarith
        exact_mod_cast this
      rw [Nat.sub_eq_zero_of_le hge]
      push_cast
      linarith
  unfold timerSlaveWire
  rw [htimer]
  ring

/-- The two tasks fit the request exactly when what the script's division cuts
off pays for the bytes by which timestamp packets exceed load packets. -/
theorem wireLoad_le_iff {R S : ℕ} (hS : 64 ≤ S) (hsize : S + 20 < 2 ^ 63) :
    ((cbrQuotient R S : ℚ) - S * 8 / 1000) * (S + 20) / S + timerSlaveWire (frameSize S) ≤ R ↔
      8 * S * (88 - S) ≤ 1000 * (R * S % (S + 20)) := by
  have hpos : (0 : ℚ) < S := by
    have : 0 < S := by omega
    exact_mod_cast this
  have hdivision : (cbrQuotient R S : ℚ) * (S + 20) + (R * S % (S + 20) : ℕ) = R * S := by
    exact_mod_cast cbrQuotient_mul_add_mod R S
  have htotal : ((cbrQuotient R S : ℚ) - S * 8 / 1000) * (S + 20) / S +
      timerSlaveWire (frameSize S) =
      R + (8 * S * (88 - S : ℕ) - 1000 * (R * S % (S + 20) : ℕ)) / (1000 * S) := by
    rw [timerSlaveWire_eq hsize]
    field_simp
    linear_combination 1000 * hdivision
  have hcast : 8 * S * (88 - S) ≤ 1000 * (R * S % (S + 20)) ↔
      (8 * S * (88 - S : ℕ) - 1000 * (R * S % (S + 20) : ℕ) : ℚ) ≤ 0 := by
    rw [sub_nonpos]
    exact_mod_cast Iff.rfl
  rw [htotal, hcast, add_le_iff_nonpos_right, div_le_iff₀ (by positivity), zero_mul]

/-! ## The pipeline -/

/-- What the pipeline is meant to guarantee at `R` and `S`: MoonGen gets the quotient
and the size without CRC, `master` limits the load queue, to a positive rate that no
smaller request exceeds, and both tasks together stay within the request. -/
def CbrWithinLoad (lineRate : ℚ) (sw : Switch) (R S : ℕ) : Prop :=
  (∃ call, (experiment sw .cbr (some R) (some S) none).call = some call ∧
    call.rate = (R * S / (S + 20) : ℕ) ∧ call.size = some ((S - 4 : ℕ) : ℚ)) ∧
  ∃ x, cbrSetRate sw R S = some x ∧ 0 < x ∧
    (∀ R' x', R' ≤ R → cbrSetRate sw R' S = some x' → x' ≤ x) ∧
    ∃ total, cbrWireLoad lineRate sw R S = some total ∧ total ≤ R

theorem call_cbr_eq_iff {sw : Switch} {R S : ℕ} :
    (∃ call, (experiment sw .cbr (some R) (some S) none).call = some call ∧
      call.rate = (R * S / (S + 20) : ℕ) ∧ call.size = some ((S - 4 : ℕ) : ℚ)) ↔
      cbrRate R S = some (cbrQuotient R S : ℤ) ∧ frameSize S = (S - 4 : ℕ) := by
  rw [call_cbr, ← cbrQuotient]
  simp only [Option.getD_some, Option.map_eq_some_iff]
  constructor
  · rintro ⟨_, ⟨r, hr, rfl⟩, hrate, hsize⟩
    have hrate : (r : ℚ) = cbrQuotient R S := hrate
    have hsize : (frameSize S : ℚ) = (S - 4 : ℕ) := Option.some.inj hsize
    have hr' : r = cbrQuotient R S := by exact_mod_cast hrate
    rw [hr, hr']
    exact ⟨rfl, by exact_mod_cast hsize⟩
  · rintro ⟨hr, hsize⟩
    refine ⟨_, ⟨_, hr, rfl⟩, ?_, ?_⟩
    · exact Int.cast_natCast _
    · change some ((frameSize S : ℤ) : ℚ) = some ((S - 4 : ℕ) : ℚ)
      rw [hsize, Int.cast_natCast]

theorem size_lt_of_limit_pos {R S : ℕ} {x : ℚ}
    (hrate : cbrRate R S = some (cbrQuotient R S : ℤ)) (hframe : frameSize S = (S - 4 : ℕ))
    (hx : setRateArg (cbrQuotient R S) (frameSize S) = some x) (hpos : 0 < x) :
    S + 20 < 2 ^ 63 := by
  by_contra hsize
  have hlt : S < 2 ^ 63 + 4 := by
    have h := bashInt_lt ((S : ℤ) - 4)
    rw [frameSize] at hframe
    omega
  have hone : (cbrQuotient R S : ℚ) ≤ 1 := by
    exact_mod_cast cbrRate_le_one (by omega) hlt hrate
  have hlarge : (1000 : ℚ) ≤ S := by
    have : 1000 ≤ S := by omega
    exact_mod_cast this
  have hlimit : x = cbrQuotient R S - (S : ℚ) * 8 / 1000 := by
    rw [hframe, setRateArg] at hx
    split_ifs at hx
    cases hx
    push_cast [Nat.cast_sub (show 4 ≤ S by omega)]
    ring
  linarith

theorem cbrWireLoad_of_pos (lineRate : ℚ) (sw : Switch) {R S : ℕ} (hsize : S + 20 < 2 ^ 63)
    (hrate : cbrRate R S = some (cbrQuotient R S : ℤ)) (hpos : 0 < cbrQuotient R S) :
    cbrWireLoad lineRate sw R S =
      some (((cbrQuotient R S : ℚ) - S * 8 / 1000) * (S + 20) / S +
        timerSlaveWire (frameSize S)) := by
  have hlimit : setRateArg (cbrQuotient R S : ℤ) (frameSize S) =
      some ((cbrQuotient R S : ℤ) - (S : ℚ) * 8 / 1000) :=
    (setRateArg_eq_some hsize).mpr ⟨by exact_mod_cast hpos, rfl⟩
  have hcrc := frameSize_add_crc hsize
  rw [cbrWireLoad_eq, hrate, Option.map_some, loadSlaveWire, hlimit, hcrc, Int.cast_natCast]

end SoftwareSwitches.Workload
