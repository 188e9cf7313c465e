import SoftwareSwitches.Histogram.Script
import SoftwareSwitches.Histogram.Refinement
import Mathlib.Algebra.BigOperators.Ring.Finset

/-!
# The file that is written

What `analyze_histogram.py` writes is read again, by awk and by gnuplot: a bin as the
decimal number its start is printed as, and its count.  The file says where the bins
start exactly if every start has at most twelve significant digits, which is what
`str` keeps of a `float`.
-/

namespace SoftwareSwitches.Histogram

open SoftwareSwitches.Lib.BinaryRounding
open SoftwareSwitches.Lib.GreedyCut
open SoftwareSwitches.Lib.SignificantDigits

/-! ## Reading it with awk -/

/-- The value awk gives to a field that is a number as a whole or no number at all. -/
def awkNumber (field : List Char) : ℚ := (decimal field).getD 0

/-- `$1` and `$2` of a line, with `-F','`. -/
def awkRecord (l : Line) : ℚ × ℚ :=
  let fields := l.splitOn ','
  (awkNumber (fields.getD 0 []), awkNumber (fields.getD 1 []))

def awkRecords (text : Text) : List (ℚ × ℚ) := (readlines text).map awkRecord

theorem splitOn_newline {lines : List Line} (h : ∀ l ∈ lines, '\n' ∉ l) :
    (lines.flatMap (· ++ ['\n'])).splitOn '\n' = lines ++ [[]] := by
  induction lines with
  | nil => rfl
  | cons l lines ih =>
      have hrest := ih fun l' hl' => h l' (List.mem_cons_of_mem l hl')
      rw [List.flatMap_cons, List.append_assoc, List.singleton_append,
        List.splitOn_append_cons_self_of_not_mem (h l (by simp)), hrest, List.cons_append]

theorem readlines_flatMap {lines : List Line} (h : ∀ l ∈ lines, '\n' ∉ l) :
    readlines (lines.flatMap (· ++ ['\n'])) = lines := by
  rw [readlines, splitOn_newline h]
  simp

theorem not_mem_of_printed {text : List Char} (h : ∀ c ∈ text, Printed c) {c : Char}
    (hc : ¬ Printed c) : c ∉ text := fun hmem => hc (h c hmem)

theorem repr_spec (n : ℤ) : (∀ c ∈ (Int.repr n).toList, Printed c) ∧
    decimal (Int.repr n).toList = some (n : ℚ) := by
  have hnat : ∀ m : ℕ, (∀ c ∈ Nat.toDigits 10 m, Printed c) ∧
      unsignedDecimal (Nat.toDigits 10 m) = some (m : ℚ) := by
    intro m
    have hdigits := isDigit_toDigits m
    refine ⟨fun c hc => Or.inl (hdigits c hc), ?_⟩
    rw [unsignedDecimal_mantissa fun c hc => Or.inl (hdigits c hc),
      mantissa_whole Nat.toDigits_ne_nil hdigits, Nat.ofDigitChars_ten_toDigits]
  cases n with
  | ofNat m =>
      obtain ⟨hprinted, hvalue⟩ := hnat m
      have htext : (Int.repr (Int.ofNat m)).toList = Nat.toDigits 10 m := Nat.toList_repr
      obtain ⟨first, rest, hcons⟩ := List.exists_cons_of_ne_nil (Nat.toDigits_ne_nil (n := m))
      rw [htext]
      refine ⟨hprinted, ?_⟩
      rw [hcons] at hprinted hvalue ⊢
      have hfirst : first.isDigit := isDigit_toDigits m first (by simp [hcons])
      rw [decimal_positive hfirst hprinted, hvalue]
      rfl
  | negSucc m =>
      obtain ⟨hprinted, hvalue⟩ := hnat (m + 1)
      have htext : (Int.repr (Int.negSucc m)).toList = '-' :: Nat.toDigits 10 (m + 1) := by
        simp [Int.repr, Nat.toList_repr]
      rw [htext]
      refine ⟨?_, ?_⟩
      · intro c hc
        rcases List.mem_cons.mp hc with rfl | hc
        · decide
        · exact hprinted c hc
      · rw [decimal_negative hprinted, hvalue, Option.map_some, Int.cast_negSucc]

theorem decimal_space {text : List Char} (h : ∀ c ∈ text, Printed c) :
    decimal (' ' :: text) = decimal text := by
  have hstrip : strip (' ' :: text) = text := by
    have htext := strip_printed h
    rw [strip] at htext ⊢
    rwa [List.dropWhile_cons_of_pos (by decide)]
  rw [decimal, hstrip, decimal, strip_printed h]

theorem awkRecord_written (start : ℚ) (val : ℤ) :
    awkRecord (pyStr start ++ ',' :: ' ' :: (Int.repr val).toList) =
      (roundDigits 10 12 start, (val : ℚ)) := by
  obtain ⟨hprinted, hval⟩ := repr_spec val
  have hstart : ',' ∉ pyStr start := not_mem_of_printed (printed_pyStr start) (by decide)
  have hrest : ',' ∉ ' ' :: (Int.repr val).toList := by
    rw [List.mem_cons]
    rintro (heq | hmem)
    · exact absurd heq (by decide)
    · exact not_mem_of_printed hprinted (by decide) hmem
  unfold awkRecord
  rw [List.splitOn_append_cons_self_of_not_mem hstart, List.splitOn_eq_singleton hrest]
  simp [awkNumber, decimal_pyStr, decimal_space hprinted, hval]

theorem awkRecords_written (bins : List (ℚ × ℤ)) :
    awkRecords (bins.flatMap (rowText binary64)) =
      bins.map fun bin => (roundDigits 10 12 bin.1, (bin.2 : ℚ)) := by
  set line : ℚ × ℤ → Line := fun bin =>
    pyStr bin.1 ++ ',' :: ' ' :: (Int.repr bin.2).toList with hline
  have htext : bins.flatMap (rowText binary64) =
      (bins.map line).flatMap (· ++ ['\n']) := by
    rw [List.flatMap_map]
    apply List.flatMap_congr
    intro bin _
    simp [rowText, binary64, hline]
  have hnewline : ∀ l ∈ bins.map line, '\n' ∉ l := by
    intro l hl
    obtain ⟨bin, -, rfl⟩ := List.mem_map.mp hl
    have hstart : '\n' ∉ pyStr bin.1 := not_mem_of_printed (printed_pyStr bin.1) (by decide)
    have hval : '\n' ∉ (Int.repr bin.2).toList :=
      not_mem_of_printed (repr_spec bin.2).1 (by decide)
    simp [hline, hstart, hval]
  rw [awkRecords, htext, readlines_flatMap hnewline, List.map_map]
  apply List.map_congr_left
  intro bin _
  exact awkRecord_written bin.1 bin.2

/-! ## Twelve digits -/

def TwelveDigits (t : ℤ) : Prop := ∃ (n : ℤ) (k : ℕ), |n| < 10 ^ 12 ∧ t = n * 10 ^ k

theorem twelveDigits_of_lt {t : ℤ} (ht : |t| < 10 ^ 12) : TwelveDigits t :=
  ⟨t, 0, ht, by simp⟩

theorem roundDigits_float64 {n k : ℤ} (hn : |n| < 10 ^ 12) :
    roundDigits 10 12 (float64 (n * 10 ^ k)) = n * 10 ^ k := by
  by_cases hzero : n = 0
  · simp [hzero]
  set z : ℚ := n * 10 ^ k with hz
  have hpow : (0 : ℚ) < 10 ^ k := by positivity
  have habs : |z| = |(n : ℚ)| * 10 ^ k := by rw [hz, abs_mul, abs_of_pos hpow]
  have hnpos : (0 : ℚ) < |(n : ℚ)| := abs_pos.mpr (by exact_mod_cast hzero)
  have hnle : |(n : ℚ)| ≤ 10 ^ 12 - 1 := by
    have : |n| ≤ 10 ^ 12 - 1 := by omega
    exact_mod_cast this
  have hzpos : 0 < |z| := by
    rw [habs]
    positivity
  have hzle : |z| ≤ (10 ^ 12 - 1) * 10 ^ k := by
    rw [habs]
    exact mul_le_mul_of_nonneg_right hnle hpow.le
  have herror : |float64 z - z| ≤ 2 ^ (-53 : ℤ) * |z| := by
    exact_mod_cast abs_roundBits_sub_le 53 z
  norm_num at herror
  have hlow : |z| - |float64 z| ≤ |float64 z - z| := by
    rw [abs_sub_comm]
    exact abs_sub_abs_le_abs_sub z (float64 z)
  have hhigh : |float64 z| - |z| ≤ |float64 z - z| := abs_sub_abs_le_abs_sub (float64 z) z
  have hx : float64 z ≠ 0 := by
    rw [← abs_pos]
    linarith
  have hle : lastDigitExponent 10 12 (float64 z) ≤ k := by
    have hlt : |float64 z| < ((10 : ℕ) : ℚ) ^ (k + 12) := by
      rw [Nat.cast_ofNat, zpow_add₀ (by norm_num)]
      norm_num at hzle ⊢
      linarith
    have h := lastDigitExponent_le_of_lt (b := 10) (by norm_num) 12 hx hlt
    push_cast at h
    linarith
  -- The error is far below half of the twelfth digit.
  have hdigit := (abs_div_zpow_lastDigitExponent (b := 10) (by norm_num) 12 hx).2
  rw [div_lt_iff₀ (by positivity), Nat.cast_ofNat] at hdigit
  have h := roundDigits_eq_of_near (b := 10) (p := 12) (by norm_num) hx (n := n) hle (by
    rw [Nat.cast_ofNat, ← hz]
    norm_num at hdigit
    linarith)
  rw [Nat.cast_ofNat] at h
  exact h

/-- `str` keeps a key exactly if its tick has at most twelve digits. -/
theorem roundDigits_tenths_eq_iff (t : ℤ) :
    roundDigits 10 12 (tenths t) = t / 10 ↔ TwelveDigits t := by
  constructor
  · intro h
    obtain ⟨n, k, hn, heq⟩ := exists_roundDigits_eq (b := 10) (by norm_num) (p := 12)
      (by norm_num) (tenths t)
    rw [h, Nat.cast_ofNat] at heq
    have ht : (t : ℚ) = n * 10 ^ (k + 1) := by
      rw [zpow_add₀ (by norm_num), zpow_one]
      linarith
    by_cases hk : 0 ≤ k + 1
    · refine ⟨n, (k + 1).toNat, hn, ?_⟩
      rw [← Int.toNat_of_nonneg hk, zpow_natCast] at ht
      exact_mod_cast ht
    · -- Digits behind the point of a whole number are zeros.
      apply twelveDigits_of_lt
      obtain ⟨j, hj⟩ : ∃ j : ℕ, k + 1 = -j := ⟨(-(k + 1)).toNat, by omega⟩
      have hscale : n = t * 10 ^ j := by
        rw [hj, zpow_neg, zpow_natCast] at ht
        field_simp at ht
        exact_mod_cast ht.symm
      rw [hscale, abs_mul] at hn
      have hone : (1 : ℤ) ≤ |10 ^ j| := by
        rw [abs_of_pos (by positivity)]
        exact one_le_pow₀ (by norm_num)
      calc |t| ≤ |t| * |10 ^ j| := le_mul_of_one_le_right (abs_nonneg t) hone
        _ < 10 ^ 12 := by exact_mod_cast hn
  · rintro ⟨n, k, hn, rfl⟩
    have htenths : (((n * 10 ^ k : ℤ) : ℚ)) / 10 = n * 10 ^ ((k : ℤ) - 1) := by
      rw [zpow_sub₀ (by norm_num), zpow_natCast]
      push_cast
      ring
    rw [tenths, htenths]
    exact roundDigits_float64 hn

/-! ## The file as a whole -/

def tickSet (rows : List Row) : Set ℤ := {t | ∃ row ∈ rows, tick row.latency = t}

/-- The records say what a re-binning has to say: the bins start at the least tick and
then each at the least one the bin before leaves, a bin takes the ticks up to three above
its start, the third with `tickLimit` alone, and every row is counted in one bin. -/
structure WithoutLoss (rows : List Row) (s : ℤ) (starts : List ℤ)
    (records : List (ℚ × ℚ)) : Prop where
  nearest : ∀ row ∈ rows, |row.latency / 100 - tick row.latency| ≤ 1 / 2
  limit : ∀ t k : ℤ, (t ≤ k → k < t + 3 → Accepts tickLimit t k) ∧
    (k < t ∨ t + 3 < k → ¬ Accepts tickLimit t k)
  starts_eq : records.map Prod.fst = (s :: starts).map fun t : ℤ => (t : ℚ) / 10
  first : IsLeast (tickSet rows) s
  greedy : GreedyFrom tickLimit (tickSet rows) s starts
  increasing : (records.map Prod.fst).Pairwise (· < ·)
  unique : ∀ row ∈ rows, ∃! record, record ∈ records ∧
    ∃ t : ℤ, record.1 = (t : ℚ) / 10 ∧ Accepts tickLimit t (tick row.latency)
  count : ∀ record ∈ records, ∃ t : ℤ, record.1 = (t : ℚ) / 10 ∧
    record.2 = (((rows.filter (Accepts tickLimit t <| tick ·.latency)).map Row.count).sum : ℤ)
  total : (records.map Prod.snd).sum = ((rows.map Row.count).sum : ℤ)

/-- Every tick at which a bin has to start has at most twelve digits. -/
def StartsPrintable (rows : List Row) : Prop :=
  ∀ s starts, IsLeast (tickSet rows) s → GreedyFrom tickLimit (tickSet rows) s starts →
    ∀ t ∈ s :: starts, TwelveDigits t

/-- Up to some 27 hours a tick has no more digits. -/
theorem startsPrintable_of_lt {rows : List Row}
    (h : ∀ row ∈ rows, |tick row.latency| < 10 ^ 12) : StartsPrintable rows := by
  intro s starts hleast hgreedy t ht
  have hmem : t ∈ tickSet rows := by
    rcases List.mem_cons.mp ht with rfl | ht
    · exact hleast.1
    · exact hgreedy.start_mem t ht
  obtain ⟨row, hrow, rfl⟩ := hmem
  exact twelveDigits_of_lt (h row hrow)

theorem float64_latency_of_parseRow {l : Line} {row : Row}
    (h : parseRow binary64 l = .ok row) : float64 row.latency = row.latency := by
  unfold parseRow at h
  split at h
  · cases h
  · next first values _ =>
      cases hm : decimal first with
      | none => simp [binary64, hm] at h
      | some m =>
          simp only [binary64, hm, Option.map_some] at h
          split at h
          · cases h
          · split at h
            · cases h
            · cases h
              exact roundBits_roundBits (by norm_num) m

theorem inRange_of_parse {lines : List Line} {rows : List Row}
    (hparse : lines.mapM (parseRow binary64) = .ok rows)
    (hrange : ∀ row ∈ rows, |row.latency| < 2 ^ 53) : ∀ row ∈ rows, InRange row.latency := by
  induction lines generalizing rows with
  | nil =>
      cases hparse
      simp
  | cons l lines ih =>
      obtain ⟨row, rest, hrow, hrest, rfl⟩ := mapM_parseRow_cons hparse
      intro other hother
      rcases List.mem_cons.mp hother with rfl | hmem
      · exact ⟨float64_latency_of_parseRow hrow, hrange _ hother⟩
      · exact ih hrest (fun row hrow => hrange row (List.mem_cons_of_mem _ hrow)) other hmem

theorem rebinText_perm {content content' : Text} {first first' : Line} {lines lines' : List Line}
    {rows rows' : List Row} (hlines : readlines content = first :: lines)
    (hparse : lines.mapM (parseRow binary64) = .ok rows)
    (hlines' : readlines content' = first' :: lines')
    (hparse' : lines'.mapM (parseRow binary64) = .ok rows') (hperm : rows'.Perm rows) :
    rebinText binary64 content' = rebinText binary64 content := by
  rw [rebinText, rebinText, hlines, hlines', rebin_eq_binning binary64 first hparse,
    rebin_eq_binning binary64 first' hparse', binning_fill_perm binary64 hperm]

section Written

variable {content : Text} {first : Line} {lines : List Line} {rows : List Row}
  (hlines : readlines content = first :: lines)
  (hparse : lines.mapM (parseRow binary64) = .ok rows) (hrows : rows ≠ [])
  (hrange : ∀ row ∈ rows, |row.latency| < 2 ^ 53)

include hlines hparse hrows hrange

theorem rebinText_binary64 :
    ∃ s starts bins text, Rebinned ticks64.toPython rows s starts bins ∧
      rebinText binary64 content = .ok text ∧
      awkRecords text =
        bins.map fun bin => (roundDigits 10 12 (tenths bin.1), (bin.2 : ℚ)) := by
  obtain ⟨s, starts, bins, hbins, h⟩ :=
    binning_fill_rebinned ticks64.toPython ticks64.lt_limit hrows
  refine ⟨s, starts, bins, (bins.map fun bin => (tenths bin.1, bin.2)).flatMap (rowText binary64),
    h, ?_, ?_⟩
  · have hticks := rebin_binary64_eq_ticks64 first hparse (inRange_of_parse hparse hrange)
    rw [rebin_eq_binning ticks64.toPython first hparse, hbins] at hticks
    rw [rebinText, hlines, hticks]
    rfl
  · rw [awkRecords_written, List.map_map]
    rfl

end Written

theorem cast_sum_map {α : Type*} (l : List α) (f : α → ℤ) :
    (((l.map f).sum : ℤ) : ℚ) = (l.map fun a => (f a : ℚ)).sum := by
  rw [Int.cast_list_sum, List.map_map]
  rfl

theorem tenth_inj {s t : ℤ} (h : (s : ℚ) / 10 = t / 10) : s = t := by
  have hcast : (s : ℚ) = t := by linarith
  exact_mod_cast hcast

section Starts

variable {rows : List Row} {s : ℤ} {starts : List ℤ} {bins : List (ℤ × ℤ)}

theorem startsPrintable_iff (h : Rebinned ticks64.toPython rows s starts bins) :
    StartsPrintable rows ↔ ∀ bin ∈ bins, TwelveDigits bin.1 := by
  constructor
  · intro hprintable bin hbin
    exact hprintable s starts h.first h.greedy bin.1 (h.mem_starts hbin)
  · intro hbins s' starts' hleast hgreedy t ht
    have hs : s' = s := hleast.unique h.first
    subst hs
    have hstarts : starts' = starts := hgreedy.unique h.greedy
    rw [hstarts, ← h.starts_eq] at ht
    obtain ⟨bin, hbin, rfl⟩ := List.mem_map.mp ht
    exact hbins bin hbin

theorem withoutLoss_of_records (h : Rebinned ticks64.toPython rows s starts bins)
    (hrange : ∀ row ∈ rows, InRange row.latency) :
    WithoutLoss rows s starts (bins.map fun bin => ((bin.1 : ℚ) / 10, (bin.2 : ℚ))) where
  nearest row hrow := abs_sub_tick_le (hrange row hrow).1 (hrange row hrow).2
  limit t k := by
    refine ⟨fun hle hlt => ticks64.accepts_of_lt hle hlt, ?_⟩
    rintro hout haccepts
    have := ticks64.le_of_accepts haccepts
    omega
  starts_eq := by
    rw [← h.starts_eq, List.map_map, List.map_map]
    rfl
  first := h.first
  greedy := h.greedy
  increasing := by
    have hstarts := h.greedy.pairwise_lt
    rw [← h.starts_eq, List.pairwise_map] at hstarts
    rw [List.map_map, List.pairwise_map]
    refine hstarts.imp ?_
    intro bin bin' hlt
    have hcast : (bin.1 : ℚ) < bin'.1 := by exact_mod_cast hlt
    exact div_lt_div_of_pos_right hcast (by norm_num)
  unique row hrow := by
    obtain ⟨bin, ⟨hbin, haccepts⟩, hunique⟩ := h.existsUnique_bin ticks64.lt_limit hrow
    refine ⟨_, ⟨List.mem_map_of_mem hbin, bin.1, rfl, haccepts⟩, ?_⟩
    rintro record ⟨hrecord, t, ht, haccepts'⟩
    obtain ⟨bin', hbin', rfl⟩ := List.mem_map.mp hrecord
    have hsame : bin'.1 = t := tenth_inj ht
    rw [hunique bin' ⟨hbin', hsame ▸ haccepts'⟩]
  count record hrecord := by
    obtain ⟨bin, hbin, rfl⟩ := List.mem_map.mp hrecord
    exact ⟨bin.1, rfl, congrArg Int.cast (h.count bin hbin)⟩
  total := by
    rw [← h.total ticks64.lt_limit, List.map_map, cast_sum_map]
    rfl

theorem records_eq_of_twelveDigits (hbins : ∀ bin ∈ bins, TwelveDigits bin.1) :
    (bins.map fun bin => (roundDigits 10 12 (tenths bin.1), (bin.2 : ℚ))) =
      bins.map fun bin => ((bin.1 : ℚ) / 10, (bin.2 : ℚ)) := by
  apply List.map_congr_left
  intro bin hbin
  rw [(roundDigits_tenths_eq_iff bin.1).mpr (hbins bin hbin)]

theorem twelveDigits_of_starts_eq
    (h : (bins.map fun bin => (roundDigits 10 12 (tenths bin.1), (bin.2 : ℚ))).map Prod.fst =
      (bins.map Prod.fst).map fun t : ℤ => (t : ℚ) / 10) :
    ∀ bin ∈ bins, TwelveDigits bin.1 := by
  rw [List.map_map, List.map_map, List.map_inj_left] at h
  intro bin hbin
  exact (roundDigits_tenths_eq_iff bin.1).mp (h bin hbin)

end Starts

def threeRows : List Row := [⟨1400, 3⟩, ⟨1100, 2⟩, ⟨1190, 1⟩]

end SoftwareSwitches.Histogram
