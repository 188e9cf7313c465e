import SoftwareSwitches.Histogram.Binary64
import SoftwareSwitches.Histogram.Ticks

/-!
# Binary64 keys are ticks

For latencies below `2^53` ns, up to which a double holds every whole nanosecond, the
rounding errors of binary64 are far below a tick: doubles nearest to different ticks are
ordered as the ticks are, and `start+step` separates the keys two ticks above a start from
those four ticks above.  So the script computes, renamed, what the tick model computes,
with one rule for the key exactly three ticks above a start.
-/

namespace SoftwareSwitches.Histogram

open SoftwareSwitches.Lib.BinaryRounding
open SoftwareSwitches.Lib.GreedyCut

/-! ## Rounding errors within the range -/

theorem abs_float64_sub_le {x b : ℚ} (hx : |x| ≤ b) :
    |float64 x - x| ≤ 2 ^ (-53 : ℤ) * b := by
  have herror := abs_roundBits_sub_le 53 x
  calc |float64 x - x| ≤ 2 ^ (-53 : ℤ) * |x| := by exact_mod_cast herror
    _ ≤ 2 ^ (-53 : ℤ) * b := mul_le_mul_of_nonneg_left hx (by positivity)

theorem abs_tenths_sub_le {t : ℤ} (ht : |t| ≤ 2 ^ 48) :
    |tenths t - t / 10| ≤ 1 / 200 := by
  have ht' : |(t : ℚ)| ≤ 2 ^ 48 := by exact_mod_cast ht
  have hle : |(t : ℚ) / 10| ≤ 2 ^ 48 / 10 := by
    rw [abs_div, abs_of_pos (by norm_num : (0 : ℚ) < 10)]
    exact div_le_div_of_nonneg_right ht' (by norm_num)
  calc |tenths t - t / 10| ≤ 2 ^ (-53 : ℤ) * (2 ^ 48 / 10) := abs_float64_sub_le hle
    _ ≤ 1 / 200 := by norm_num

theorem abs_step_sub_le : |step - 3 / 10| ≤ 1 / 200 := by
  calc |step - 3 / 10| ≤ 2 ^ (-53 : ℤ) * 1 := abs_float64_sub_le (by norm_num [abs_of_pos])
    _ ≤ 1 / 200 := by norm_num

theorem abs_limit_sub_le {s : ℤ} (hs : |s| ≤ 2 ^ 47) :
    |binary64.limit (tenths s) - (s + 3) / 10| ≤ 3 / 200 := by
  have hkey := abs_tenths_sub_le (t := s) (hs.trans (by norm_num))
  have hs' : |(s : ℚ)| ≤ 2 ^ 47 := by exact_mod_cast hs
  have hstep := abs_step_sub_le
  have hsum : |tenths s + step| ≤ 2 ^ 45 := by
    rw [abs_le] at hkey hs' hstep ⊢
    constructor <;> linarith
  have hround := abs_float64_sub_le hsum
  have hround' : |binary64.limit (tenths s) - (tenths s + step)| ≤ 1 / 200 :=
    hround.trans (by norm_num)
  rw [abs_le] at hkey hstep hround' ⊢
  constructor <;> linarith

theorem tenths_lt_tenths {s t : ℤ} (hs : |s| ≤ 2 ^ 48) (ht : |t| ≤ 2 ^ 48) (hst : s < t) :
    tenths s < tenths t := by
  have hs' := abs_le.mp (abs_tenths_sub_le hs)
  have ht' := abs_le.mp (abs_tenths_sub_le ht)
  have hcast : (s : ℚ) + 1 ≤ t := by exact_mod_cast hst
  linarith

theorem tenths_le_iff {s t : ℤ} (hs : |s| ≤ 2 ^ 48) (ht : |t| ≤ 2 ^ 48) :
    tenths s ≤ tenths t ↔ s ≤ t := by
  constructor
  · intro h
    by_contra hlt
    exact absurd h (tenths_lt_tenths ht hs (not_le.mp hlt)).not_ge
  · intro h
    rcases h.eq_or_lt with rfl | hlt
    · exact le_rfl
    · exact (tenths_lt_tenths hs ht hlt).le

theorem tenths_inj {s t : ℤ} (hs : |s| ≤ 2 ^ 48) (ht : |t| ≤ 2 ^ 48) :
    tenths s = tenths t ↔ s = t := by
  rw [le_antisymm_iff, le_antisymm_iff, tenths_le_iff hs ht, tenths_le_iff ht hs]

def tickLimit (s : ℤ) : ℤ :=
  if tenths (s + 3) < binary64.limit (tenths s) then s + 4 else s + 3

theorem accepts_tenths_iff {s k : ℤ} (hs : |s| ≤ 2 ^ 47) (hk : |k| ≤ 2 ^ 47) :
    Accepts binary64.limit (tenths s) (tenths k) ↔ Accepts tickLimit s k := by
  have hs' : |s| ≤ 2 ^ 48 := hs.trans (by norm_num)
  have hk' : |k| ≤ 2 ^ 48 := hk.trans (by norm_num)
  have hlimit := abs_le.mp (abs_limit_sub_le hs)
  have hkey := abs_le.mp (abs_tenths_sub_le hk')
  have hlt : tenths k < binary64.limit (tenths s) ↔ k < tickLimit s := by
    unfold tickLimit
    rcases lt_trichotomy k (s + 3) with hbelow | rfl | habove
    · have hcast : (k : ℚ) ≤ s + 2 := by exact_mod_cast (by omega : k ≤ s + 2)
      have hleft : tenths k < binary64.limit (tenths s) := by linarith
      refine ⟨fun _ => ?_, fun _ => hleft⟩
      split <;> omega
    · split_ifs with h
      · exact ⟨fun _ => by omega, fun _ => h⟩
      · exact ⟨fun h' => absurd h' h, fun h' => absurd h' (lt_irrefl _)⟩
    · have hcast : (s : ℚ) + 4 ≤ k := by exact_mod_cast (by omega : s + 4 ≤ k)
      have hright : ¬ tenths k < binary64.limit (tenths s) := by
        rw [not_lt]
        linarith
      refine ⟨fun h => absurd h hright, fun h => ?_⟩
      split at h <;> omega
  unfold Accepts
  rw [tenths_le_iff hs' hk', hlt]

/-! ## The tick of a latency -/

theorem abs_sub_roundTenth_le (x : ℚ) : |10 * x - roundTenth x| ≤ 1 / 2 := by
  unfold roundTenth
  split_ifs with h
  · have hle := Int.floor_le (10 * x + 1 / 2)
    have hlt := Int.lt_floor_add_one (10 * x + 1 / 2)
    rw [abs_le]
    constructor <;> linarith
  · have hle := Int.le_ceil (10 * x - 1 / 2)
    have hlt := Int.ceil_lt_add_one (10 * x - 1 / 2)
    rw [abs_le]
    constructor <;> linarith

/-- Dividing a binary64 latency by 1000 does not carry it over the middle between
two ticks: `x` is at least its last bit away from the middle, which is more than the
division loses. -/
theorem far_from_middle {x : ℚ} (hx : x ≠ 0) (hbits : float64 x = x) (hlarge : |x| < 2 ^ 53)
    {middle : ℤ} (hne : x ≠ middle) :
    1000 * |float64 (x / 1000) - x / 1000| < |x - middle| := by
  have hy : x / 1000 ≠ 0 := div_ne_zero hx (by norm_num)
  have hunit : (0 : ℚ) < 2 ^ lastBitExponent 53 (x / 1000) := by positivity
  have herror : |float64 (x / 1000) - x / 1000| ≤
      1 / 2 * 2 ^ lastBitExponent 53 (x / 1000) := abs_roundBits_sub_le_half_bit 53 hy
  have hshift : lastBitExponent 53 (x / 1000) + 9 ≤ lastBitExponent 53 x := by
    apply lastBitExponent_add_le hy
    rw [abs_div, abs_of_pos (by norm_num : (0 : ℚ) < 1000)]
    have hnonneg := abs_nonneg x
    norm_num
    linarith
  have hfar := pow_lastBitExponent_le_abs_sub hx hbits hlarge hne
  have hpow : (2 : ℚ) ^ (lastBitExponent 53 (x / 1000) + 9) ≤ 2 ^ lastBitExponent 53 x :=
    zpow_le_zpow_right₀ (by norm_num) hshift
  rw [zpow_add₀ (by norm_num)] at hpow
  norm_num at hpow
  linarith

theorem abs_sub_tick_le {x : ℚ} (hbits : float64 x = x) (hlarge : |x| < 2 ^ 53) :
    |x / 100 - tick x| ≤ 1 / 2 := by
  unfold tick
  by_cases hx : x = 0
  · subst hx
    have hzero : roundTenth (float64 (0 / 1000)) = 0 := by decide +kernel
    rw [hzero]
    norm_num
  have ht := abs_le.mp (abs_sub_roundTenth_le (float64 (x / 1000)))
  by_contra hfar
  rw [not_le, lt_abs] at hfar
  rcases hfar with hright | hleft
  · have hgap : (0 : ℚ) < x - (100 * roundTenth (float64 (x / 1000)) + 50 : ℤ) := by
      push_cast
      linarith
    have hlt := far_from_middle hx hbits hlarge (sub_pos.mp hgap).ne'
    have herror := neg_abs_le (float64 (x / 1000) - x / 1000)
    rw [abs_of_pos hgap] at hlt
    push_cast at hlt
    linarith
  · have hgap : x - (100 * roundTenth (float64 (x / 1000)) - 50 : ℤ) < 0 := by
      push_cast
      linarith
    have hlt := far_from_middle hx hbits hlarge (sub_neg.mp hgap).ne
    have herror := le_abs_self (float64 (x / 1000) - x / 1000)
    rw [abs_of_neg hgap] at hlt
    push_cast at hlt
    linarith

/-- A latency the script resolves to a tick. -/
def InRange (latency : ℚ) : Prop := float64 latency = latency ∧ |latency| < 2 ^ 53

def ticks64 : Ticks where
  float := binary64.float
  currBin := tick
  zero := 0
  near curr prev := binary64.near (tenths curr) (tenths prev)
  limit := tickLimit
  str t := binary64.str (tenths t)
  Resolved := InRange
  nearest _ h := abs_sub_tick_le h.1 h.2
  limit_eq s := by
    unfold tickLimit
    split_ifs
    · exact Or.inr rfl
    · exact Or.inl rfl

/-! ## The two runs -/

section Runs

variable {rows : List Row} (hrange : ∀ row ∈ rows, InRange row.latency)

theorem key_binary64 (row : Row) :
    key binary64 row = tenths (key ticks64.toPython row) := rfl

theorem abs_key_ticks64_le {row : Row} (h : InRange row.latency) :
    |key ticks64.toPython row| ≤ 2 ^ 47 := by
  have hnear := abs_le.mp (ticks64.nearest row.latency h)
  have hlarge := abs_lt.mp h.2
  have hcast : |((key ticks64.toPython row : ℤ) : ℚ)| ≤ 2 ^ 47 := by
    change |((ticks64.currBin row.latency : ℤ) : ℚ)| ≤ 2 ^ 47
    rw [abs_le]
    constructor <;> linarith
  exact_mod_cast hcast

include hrange

theorem abs_le_of_mem_sortedKeys {t : ℤ}
    (ht : t ∈ sortedKeys (fill ticks64.toPython rows)) : |t| ≤ 2 ^ 47 := by
  obtain ⟨row, hrow, rfl⟩ := (mem_sortedKeys_fill _ rows t).mp ht
  exact abs_key_ticks64_le (hrange row hrow)

theorem sortedKeys_binary64 :
    sortedKeys (fill binary64 rows) =
      (sortedKeys (fill ticks64.toPython rows)).map tenths := by
  have hbound : ∀ t ∈ sortedKeys (fill ticks64.toPython rows), |t| ≤ 2 ^ 48 :=
    fun t ht => (abs_le_of_mem_sortedKeys hrange ht).trans (by norm_num)
  have hsorted : ((sortedKeys (fill ticks64.toPython rows)).map tenths).Pairwise (· < ·) := by
    rw [List.pairwise_map]
    refine (pairwise_sortedKeys _).imp_of_mem ?_
    intro s t hs ht hst
    exact tenths_lt_tenths (hbound s hs) (hbound t ht) hst
  have hperm : (sortedKeys (fill binary64 rows)).Perm
      ((sortedKeys (fill ticks64.toPython rows)).map tenths) := by
    rw [List.perm_ext_iff_of_nodup (nodup_sortedKeys _) (hsorted.imp fun h => ne_of_lt h)]
    intro k
    simp only [mem_sortedKeys_fill, List.mem_map]
    constructor
    · rintro ⟨row, hrow, rfl⟩
      exact ⟨_, ⟨row, hrow, rfl⟩, (key_binary64 row).symm⟩
    · rintro ⟨t, ⟨row, hrow, rfl⟩, rfl⟩
      exact ⟨row, hrow, key_binary64 row⟩
  exact hperm.eq_of_pairwise' ((pairwise_sortedKeys _).imp le_of_lt) (hsorted.imp le_of_lt)

theorem value_binary64 {t : ℤ} (ht : |t| ≤ 2 ^ 47) :
    value (fill binary64 rows) (tenths t) = value (fill ticks64.toPython rows) t := by
  rw [value_fill, value_fill, countAt, countAt]
  congr 2
  apply List.filter_congr
  intro row hrow
  have hkey := abs_key_ticks64_le (hrange row hrow)
  rw [key_binary64 row, decide_eq_decide]
  exact tenths_inj (hkey.trans (by norm_num)) (ht.trans (by norm_num))

theorem binning_binary64 :
    binning binary64 (fill binary64 rows) =
      (binning ticks64.toPython (fill ticks64.toPython rows)).map
        (List.map fun bin => (tenths bin.1, bin.2)) := by
  have hkeys := sortedKeys_binary64 hrange
  by_cases hnil : sortedKeys (fill ticks64.toPython rows) = []
  · have hnil' : sortedKeys (fill binary64 rows) = [] := by rw [hkeys, hnil]; rfl
    simp only [binning, hnil, hnil']
    rfl
  · have hne : sortedKeys (fill binary64 rows) ≠ [] := by simpa [hkeys] using hnil
    have hcut : cutAll binary64.limit (sortedKeys (fill binary64 rows)) =
        (cutAll tickLimit (sortedKeys (fill ticks64.toPython rows))).map fun bin =>
          (tenths bin.1, bin.2.map tenths) := by
      rw [hkeys]
      exact cutAll_map fun t ht k hk => accepts_tenths_iff
        (abs_le_of_mem_sortedKeys hrange ht) (abs_le_of_mem_sortedKeys hrange hk)
    rw [binning_eq_cutAll binary64 hne, binning_eq_cutAll ticks64.toPython hnil, hcut]
    simp only [Except.map, List.map_map, Except.ok.injEq]
    apply List.map_congr_left
    intro bin hbin
    have hvals : (bin.2.map tenths).map (value (fill binary64 rows)) =
        bin.2.map (value (fill ticks64.toPython rows)) := by
      rw [List.map_map]
      apply List.map_congr_left
      intro t ht
      exact value_binary64 hrange
        (abs_le_of_mem_sortedKeys hrange ((sublist_of_mem_cutAll hbin).subset ht))
    simp only [Function.comp_apply, hvals]

end Runs

/-- The script on a file whose latencies are in range does what the tick model does. -/
theorem rebin_binary64_eq_ticks64 (first : Line) {lines : List Line} {rows : List Row}
    (hparse : lines.mapM (parseRow binary64) = .ok rows)
    (hrange : ∀ row ∈ rows, InRange row.latency) :
    rebin binary64 (first :: lines) =
      (rebin ticks64.toPython (first :: lines)).map
        (List.map fun bin => (tenths bin.1, bin.2)) := by
  have hparse' : lines.mapM (parseRow ticks64.toPython) = .ok rows := hparse
  rw [rebin_eq_binning binary64 first hparse,
    rebin_eq_binning ticks64.toPython first hparse', binning_binary64 hrange]

end SoftwareSwitches.Histogram
