import SoftwareSwitches.Histogram.Rebin
import Mathlib.Tactic.Linarith

/-!
# Re-binning in ticks of 0.1 us

Keys are multiples of 0.1 us, held here as integers.  What rounding decides is left open:
which way a latency half-way between two ticks goes, and whether the key exactly three
ticks above a start is below `start+step`.
-/

namespace SoftwareSwitches.Histogram

open SoftwareSwitches.Lib.GreedyCut

/-- Number operations that are right to the nearest tick where they resolve one. -/
structure Ticks extends Python ℤ where
  Resolved : ℚ → Prop
  nearest : ∀ latency, Resolved latency → |latency / 100 - currBin latency| ≤ 1 / 2
  limit_eq : ∀ s, limit s = s + 3 ∨ limit s = s + 4

namespace Ticks

variable (T : Ticks)

theorem lt_limit (s : ℤ) : s < T.limit s := by
  have h := T.limit_eq s
  omega

theorem accepts_of_lt {s k : ℤ} (hle : s ≤ k) (hlt : k < s + 3) :
    Accepts T.limit s k := by
  have h := T.limit_eq s
  exact ⟨hle, by omega⟩

theorem le_of_accepts {s k : ℤ} (h : Accepts T.limit s k) : s ≤ k ∧ k ≤ s + 3 := by
  have hlimit := T.limit_eq s
  have hlt := h.2
  exact ⟨h.1, by omega⟩

end Ticks

end SoftwareSwitches.Histogram
