import SoftwareSwitches.Lib.BinaryRounding
import SoftwareSwitches.Histogram.Printing

/-!
# Re-binning in binary64

The script's numbers are binary64: a key is the double nearest to a multiple of 0.1,
`step` the one nearest to 0.3, and `start+step` their sum rounded again.  The rounded
sum lies on, below or above the double nearest to the decimal `start+0.3`; where it
lies above, a bin takes a fourth tick.
-/

namespace SoftwareSwitches.Histogram

open SoftwareSwitches.Lib.BinaryRounding
open SoftwareSwitches.Lib.GreedyCut

abbrev float64 (x : ℚ) : ℚ := roundBits 53 x

/-- The multiple of 0.1 nearest to `x`; a tie goes away from zero. -/
def roundTenth (x : ℚ) : ℤ := if 0 ≤ x then ⌊10 * x + 1 / 2⌋ else ⌈10 * x - 1 / 2⌉

def tenths (t : ℤ) : ℚ := float64 (t / 10)

def tick (latency : ℚ) : ℤ := roundTenth (float64 (latency / 1000))

def step : ℚ := float64 (3 / 10)

def binary64 : Python ℚ where
  float text := (decimal text).map float64
  currBin latency := tenths (tick latency)
  zero := 0
  near curr prev := float64 (curr - prev) < float64 (3 / 10)
  limit start := float64 (start + step)
  str := pyStr

/-- The double nearest to the decimal `s+0.3`. -/
def threeTicksOn (s : ℚ) : ℚ := tenths (roundTenth s + 3)

/-- The bins of the script with the keys merged into them, for a given end of a bin. -/
def binsUpTo (limit : ℚ → ℚ) (rows : List Row) : List (ℚ × List ℚ) :=
  cutAll limit (sortedKeys (fill binary64 rows))

/-- No bin counts a row at or above the decimal `start+0.3`. -/
def ThreeTicksWide (rows : List Row) : Prop :=
  ∀ bin ∈ binsUpTo binary64.limit rows, ∀ row ∈ rows, key binary64 row ∈ bin.2 →
    key binary64 row < threeTicksOn bin.1

/-- The bins written are three ticks wide exactly if, sweeping with the lower of the
two ends, no bin has a row between the decimal `start+0.3` and the sum `start+step`. -/
theorem threeTicksWide_iff (first : Line) (lines : List Line) (rows : List Row)
    (hparse : lines.mapM (parseRow binary64) = .ok rows) (hrows : rows ≠ []) :
    rebin binary64 (first :: lines) = .ok ((binsUpTo binary64.limit rows).map fun bin =>
      (bin.1, ((rows.filter (key binary64 · ∈ bin.2)).map Row.count).sum)) ∧
    (ThreeTicksWide rows ↔
      ∀ bin ∈ binsUpTo (lower binary64.limit threeTicksOn) rows,
        bin.1 < threeTicksOn bin.1 ∧
        ∀ row ∈ rows, ¬ (threeTicksOn bin.1 ≤ key binary64 row ∧
          key binary64 row < binary64.limit bin.1)) := by
  have hmem := mem_sortedKeys_fill binary64 rows
  constructor
  · rw [rebin_eq_binning binary64 first hparse, binning_fill_eq binary64 hrows]
    rfl
  · have hiff := cutAll_below_iff binary64.limit threeTicksOn
      (pairwise_sortedKeys (fill binary64 rows))
    have hbelow : ThreeTicksWide rows ↔ ∀ bin ∈ binsUpTo binary64.limit rows,
        ∀ k ∈ bin.2, k < threeTicksOn bin.1 := by
      constructor
      · intro h bin hbin k hk
        obtain ⟨row, hrow, rfl⟩ := (hmem k).mp ((sublist_of_mem_cutAll hbin).subset hk)
        exact h bin hbin row hrow hk
      · intro h bin hbin row _ hk
        exact h bin hbin _ hk
    rw [hbelow, binsUpTo, hiff]
    constructor
    · intro h bin hbin
      obtain ⟨hstart, hgap⟩ := h bin hbin
      exact ⟨hstart, fun row hrow => hgap _ ((hmem _).mpr ⟨row, hrow, rfl⟩)⟩
    · intro h bin hbin
      obtain ⟨hstart, hgap⟩ := h bin hbin
      refine ⟨hstart, ?_⟩
      intro k hk
      obtain ⟨row, hrow, rfl⟩ := (hmem k).mp hk
      exact hgap row hrow

/-- From 1.0 us the sum `start+step` is the double nearest to 1.3. -/
theorem threeTicksWide_iff_from_1000 :
    ThreeTicksWide [⟨1000, 1⟩, ⟨1300, 1⟩] := by
  refine (threeTicksWide_iff "# Samples".toList ["1000,1".toList, "1300,1".toList]
    [⟨1000, 1⟩, ⟨1300, 1⟩] (by decide +kernel) (by decide)).2.mpr ?_
  decide +kernel

/-- From 1.1 us it is the double above 1.4, and the row at 1.4 us is merged. -/
theorem not_threeTicksWide_from_1100 :
    rebin binary64 ["# Samples".toList, "1100,1".toList, "1400,1".toList] =
        .ok [(tenths 11, 2)] ∧
      ¬ ThreeTicksWide [⟨1100, 1⟩, ⟨1400, 1⟩] := by
  constructor
  · decide +kernel
  · unfold ThreeTicksWide
    decide +kernel

end SoftwareSwitches.Histogram
