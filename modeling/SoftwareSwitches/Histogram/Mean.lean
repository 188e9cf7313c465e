import SoftwareSwitches.Histogram.Records
import Mathlib.Algebra.Order.BigOperators.Group.List
import Mathlib.Tactic.FieldSimp

/-!
# The mean latency of a raw and of a re-binned file

`sum.sh` prints the quotient of the sums of `$1*$2` and of `$2` over the records of
a file.  It is run on the raw files, in nanoseconds, and on the `_parsed` ones, in
microseconds.  Both are read as exact quotients, the first of the latencies as the
script has read them too, the second of the decimal numbers in the file.
-/

namespace SoftwareSwitches.Histogram

open SoftwareSwitches.Lib.GreedyCut

/-! ## The awk program -/

def awkStep (vars : ℚ × ℚ) (record : ℚ × ℚ) : ℚ × ℚ :=
  (vars.1 + record.1 * record.2, vars.2 + record.2)

/-- What `END` prints; a zero divisor is fatal. -/
def awkMean (records : List (ℚ × ℚ)) : Option ℚ :=
  let vars := records.foldl awkStep (0, 0)
  if vars.2 = 0 then none else some (vars.1 / vars.2)

/-- The records of a raw file: the `#` line has no number in its fields. -/
def rawRecords (rows : List Row) : List (ℚ × ℚ) :=
  (0, 0) :: rows.map fun row => (row.latency, (row.count : ℚ))

theorem foldl_awkStep (records : List (ℚ × ℚ)) (vars : ℚ × ℚ) :
    records.foldl awkStep vars =
      (vars.1 + (records.map fun r => r.1 * r.2).sum,
        vars.2 + (records.map Prod.snd).sum) := by
  induction records generalizing vars with
  | nil => simp
  | cons r records ih =>
      rw [List.foldl_cons, ih]
      simp [awkStep, add_assoc]

theorem awkMean_eq {records : List (ℚ × ℚ)} (h : (records.map Prod.snd).sum ≠ 0) :
    awkMean records =
      some ((records.map fun r => r.1 * r.2).sum / (records.map Prod.snd).sum) := by
  simp [awkMean, foldl_awkStep, h]

/-! ## One bin -/

/-- A start is at most 0.35 us below and 0.05 us above the latencies in its bin. -/
theorem start_sub_latency (T : Ticks) {s : ℤ} {latency : ℚ} (hresolved : T.Resolved latency)
    (h : Accepts T.limit s (T.currBin latency)) :
    latency / 1000 - 7 / 20 ≤ (s : ℚ) / 10 ∧ (s : ℚ) / 10 ≤ latency / 1000 + 1 / 20 := by
  have hnear := abs_le.mp (T.nearest latency hresolved)
  obtain ⟨hle, hge⟩ := T.le_of_accepts h
  have hle' : (s : ℚ) ≤ T.currBin latency := by exact_mod_cast hle
  have hge' : (T.currBin latency : ℚ) ≤ s + 3 := by exact_mod_cast hge
  constructor <;> linarith

theorem bin_between (T : Ticks) {rows : List Row} (hcounts : ∀ row ∈ rows, 0 ≤ row.count)
    (hresolved : ∀ row ∈ rows, T.Resolved row.latency) (s : ℤ)
    (hbin : ∀ row ∈ rows, Accepts T.limit s (key T.toPython row)) :
    (rows.map fun row => (row.latency / 1000 - 7 / 20) * (row.count : ℚ)).sum ≤
        (s : ℚ) / 10 * ((rows.map Row.count).sum : ℤ) ∧
      (s : ℚ) / 10 * ((rows.map Row.count).sum : ℤ) ≤
        (rows.map fun row => (row.latency / 1000 + 1 / 20) * (row.count : ℚ)).sum := by
  have hsum : (s : ℚ) / 10 * ((rows.map Row.count).sum : ℤ) =
      (rows.map fun row => (s : ℚ) / 10 * (row.count : ℚ)).sum := by
    rw [List.sum_map_mul_left, cast_sum_map]
  rw [hsum]
  constructor
  · apply List.sum_le_sum
    intro row hrow
    have hcount : (0 : ℚ) ≤ row.count := by exact_mod_cast hcounts row hrow
    have hstart := start_sub_latency T (hresolved row hrow) (hbin row hrow)
    exact mul_le_mul_of_nonneg_right hstart.1 hcount
  · apply List.sum_le_sum
    intro row hrow
    have hcount : (0 : ℚ) ≤ row.count := by exact_mod_cast hcounts row hrow
    have hstart := start_sub_latency T (hresolved row hrow) (hbin row hrow)
    exact mul_le_mul_of_nonneg_right hstart.2 hcount

/-! ## All bins -/

section Sums

variable {T : Ticks} {rows : List Row} {s : ℤ} {starts : List ℤ} {bins : List (ℤ × ℤ)}

theorem weighted_between (h : Rebinned T.toPython rows s starts bins)
    (hcounts : ∀ row ∈ rows, 0 ≤ row.count)
    (hresolved : ∀ row ∈ rows, T.Resolved row.latency) :
    (rows.map fun row => (row.latency / 1000 - 7 / 20) * (row.count : ℚ)).sum ≤
        (bins.map fun bin => (bin.1 : ℚ) / 10 * (bin.2 : ℚ)).sum ∧
      (bins.map fun bin => (bin.1 : ℚ) / 10 * (bin.2 : ℚ)).sum ≤
        (rows.map fun row => (row.latency / 1000 + 1 / 20) * (row.count : ℚ)).sum := by
  have hbin : ∀ t : ℤ, ∀ row ∈ rows.filter (Accepts T.limit t <| key T.toPython ·),
      row ∈ rows ∧ Accepts T.limit t (key T.toPython row) := by
    intro t row hrow
    obtain ⟨hmem, haccepts⟩ := List.mem_filter.mp hrow
    exact ⟨hmem, by simpa using haccepts⟩
  have hbetween := fun t : ℤ => bin_between T
    (fun row hrow => hcounts row (hbin t row hrow).1)
    (fun row hrow => hresolved row (hbin t row hrow).1) t
    fun row hrow => (hbin t row hrow).2
  rw [h.bins_eq, List.map_map,
    ← h.sum_bins T.lt_limit fun row => (row.latency / 1000 - 7 / 20) * (row.count : ℚ),
    ← h.sum_bins T.lt_limit fun row => (row.latency / 1000 + 1 / 20) * (row.count : ℚ)]
  constructor
  · apply List.sum_le_sum
    intro t _
    exact (hbetween t).1
  · apply List.sum_le_sum
    intro t _
    exact (hbetween t).2

theorem sum_shifted (rows : List Row) (d : ℚ) :
    (rows.map fun row => (row.latency / 1000 + d) * (row.count : ℚ)).sum =
      (rows.map fun row => row.latency * (row.count : ℚ)).sum / 1000 +
        d * (rows.map fun row => (row.count : ℚ)).sum := by
  induction rows with
  | nil => simp
  | cons row rows ih =>
      simp only [List.map_cons, List.sum_cons, ih]
      ring

end Sums

end SoftwareSwitches.Histogram
