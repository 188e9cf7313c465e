import SoftwareSwitches.Histogram.Rebin
import SoftwareSwitches.Lib.SignificantDigits
import Mathlib.Data.List.DropRight

/-!
# What Python prints of a number

`str` of a `float` keeps twelve significant digits in Python 2, so a key with more is
written as a neighbour of it.  Reading the text back as a decimal literal gives the
number rounded to twelve digits, whichever way it is laid out.
-/

namespace SoftwareSwitches.Histogram

open SoftwareSwitches.Lib.SignificantDigits

/-- The twelve significant digits of a positive number without the zeros at their end,
and how many of them, or zeros behind them, stand before the decimal point. -/
def significantDigits (x : ℚ) : List Char × ℤ :=
  let unit := lastDigitExponent 10 12 x
  let digits := Nat.toDigits 10 (roundHalfEven (x / 10 ^ unit)).toNat
  (digits.rdropWhile (· = '0'), digits.length + unit)

def fixedText (digits : List Char) (point : ℤ) : List Char :=
  let whole := List.replicate (1 - point).toNat '0' ++ digits
  let place := (max point 1).toNat
  let padded := whole ++ List.replicate (place + 1 - whole.length) '0'
  padded.take place ++ '.' :: padded.drop place

def exponentDigits (n : ℕ) : List Char :=
  if n < 10 then '0' :: Nat.toDigits 10 n else Nat.toDigits 10 n

def exponentText (e : ℤ) : List Char :=
  (if e < 0 then '-' else '+') :: exponentDigits e.natAbs

def scientificText : List Char → ℤ → List Char
  | [], _ => []
  | first :: rest, point =>
    first :: (if rest = [] then [] else '.' :: rest) ++ 'e' :: exponentText (point - 1)

/-- `%.12g` for a positive number, with `.0` where there would be no point. -/
def positiveStr (x : ℚ) : List Char :=
  let (digits, point) := significantDigits x
  if point ≤ -4 ∨ 11 < point then scientificText digits point else fixedText digits point

/-- `str(x)` of a `float` in Python 2.7.  A zero has no sign here: for a key that a negative
latency is rounded to Python prints `-0.0`. -/
def pyStr (x : ℚ) : List Char :=
  if x = 0 then "0.0".toList
  else if x < 0 then '-' :: positiveStr (-x)
  else positiveStr x

/-! ## Reading decimal literals -/

def Printed (c : Char) : Prop := c.isDigit ∨ c ∈ ['.', 'e', '+', '-']

instance : DecidablePred Printed := fun c =>
  inferInstanceAs (Decidable (c.isDigit ∨ c ∈ ['.', 'e', '+', '-']))

theorem Printed.not_isSpace {c : Char} (h : Printed c) : isSpace c = false := by
  by_contra hspace
  rw [isSpace, Bool.not_eq_false, decide_eq_true_eq] at hspace
  simp only [List.mem_cons, List.not_mem_nil, or_false] at hspace
  rcases hspace with rfl | rfl | rfl | rfl | rfl | rfl <;> revert h <;> decide

theorem dropWhile_isSpace {text : List Char} (h : ∀ c ∈ text, Printed c) :
    text.dropWhile isSpace = text := by
  cases text with
  | nil => rfl
  | cons c rest => rw [List.dropWhile_cons_of_neg (by simp [(h c (by simp)).not_isSpace])]

theorem strip_printed {text : List Char} (h : ∀ c ∈ text, Printed c) : strip text = text := by
  have hreverse : ∀ c ∈ text.reverse, Printed c := fun c hc => h c (List.mem_reverse.mp hc)
  rw [strip, dropWhile_isSpace h, dropWhile_isSpace hreverse, List.reverse_reverse]

theorem digits_eq {text : List Char} (hne : text ≠ []) (h : ∀ c ∈ text, c.isDigit) :
    digits text = some (Nat.ofDigitChars 10 text 0) := by
  rw [digits, if_pos ⟨hne, List.all_eq_true.mpr h⟩, Nat.ofDigitChars_eq_foldl]

theorem ne_of_isDigit {c d : Char} (h : c.isDigit) (hd : d.isDigit = false) : c ≠ d := by
  rintro rfl
  rw [h] at hd
  cases hd

theorem mantissa_whole {whole : List Char} (hne : whole ≠ []) (h : ∀ c ∈ whole, c.isDigit) :
    mantissa whole = some (Nat.ofDigitChars 10 whole 0 : ℚ) := by
  have hpoint : '.' ∉ whole := fun hmem => ne_of_isDigit (h _ hmem) (by decide) rfl
  rw [mantissa, List.splitOn_eq_singleton hpoint]
  simp [digits_eq hne h]

theorem mantissa_fraction {whole fraction : List Char} (hne : whole ≠ [])
    (h : ∀ c ∈ whole ++ fraction, c.isDigit) :
    mantissa (whole ++ '.' :: fraction) =
      some ((Nat.ofDigitChars 10 (whole ++ fraction) 0 : ℚ) / 10 ^ fraction.length) := by
  have hpoint : '.' ∉ whole ++ fraction := fun hmem => ne_of_isDigit (h _ hmem) (by decide) rfl
  have hwhole : '.' ∉ whole := fun hmem => hpoint (List.mem_append_left _ hmem)
  have hfraction : '.' ∉ fraction := fun hmem => hpoint (List.mem_append_right _ hmem)
  rw [mantissa, List.splitOn_append_cons_self_of_not_mem hwhole,
    List.splitOn_eq_singleton hfraction]
  simp [digits_eq (List.append_ne_nil_of_left_ne_nil hne fraction) h]

theorem decimal_positive {first : Char} {rest : List Char} (hfirst : first.isDigit)
    (h : ∀ c ∈ first :: rest, Printed c) :
    decimal (first :: rest) = unsignedDecimal (first :: rest) := by
  have hminus := ne_of_isDigit hfirst (d := '-') (by decide)
  have hplus := ne_of_isDigit hfirst (d := '+') (by decide)
  rw [decimal, strip_printed h]
  split
  · next heq => exact absurd (List.cons.inj heq).1 hminus
  · next heq => exact absurd (List.cons.inj heq).1 hplus
  · rfl

theorem decimal_negative {text : List Char} (h : ∀ c ∈ text, Printed c) :
    decimal ('-' :: text) = (unsignedDecimal text).map fun m => -m := by
  have hall : ∀ c ∈ '-' :: text, Printed c := by
    intro c hc
    rcases List.mem_cons.mp hc with rfl | hc
    · decide
    · exact h c hc
  rw [decimal, strip_printed hall]
  rfl

def Mantissa (text : List Char) : Prop := ∀ c ∈ text, c.isDigit ∨ c = '.'

theorem Mantissa.printed {text : List Char} (h : Mantissa text) : ∀ c ∈ text, Printed c := by
  intro c hc
  rcases h c hc with hdigit | rfl
  · exact Or.inl hdigit
  · decide

theorem not_exponent_of_mantissa {text : List Char} (h : Mantissa text) :
    ∀ c ∈ text, decide (c ≠ 'e' ∧ c ≠ 'E') = true := by
  intro c hc
  rw [decide_eq_true_eq]
  rcases h c hc with hdigit | rfl
  · exact ⟨ne_of_isDigit hdigit (by decide), ne_of_isDigit hdigit (by decide)⟩
  · decide

theorem unsignedDecimal_mantissa {text : List Char} (h : Mantissa text) :
    unsignedDecimal text = mantissa text := by
  have hall := not_exponent_of_mantissa h
  rw [unsignedDecimal, List.takeWhile_eq_self_iff.mpr hall, List.dropWhile_eq_nil_iff.mpr hall]
  cases mantissa text <;> rfl

theorem unsignedDecimal_exponent {text : List Char} (h : Mantissa text) (exponent : List Char) :
    unsignedDecimal (text ++ 'e' :: exponent) =
      (mantissa text).bind fun m => (signed exponent).map fun e => m * 10 ^ e := by
  have hall := not_exponent_of_mantissa h
  rw [unsignedDecimal, List.takeWhile_append_of_pos hall, List.dropWhile_append_of_pos hall]
  simp

/-! ## Reading what was printed -/

theorem isDigit_toDigits (n : ℕ) : ∀ c ∈ Nat.toDigits 10 n, c.isDigit :=
  fun _ hc => Nat.isDigit_of_mem_toDigits (by decide) (by decide) hc

theorem isDigit_replicate_zero (n : ℕ) : ∀ c ∈ List.replicate n '0', c.isDigit := by
  intro c hc
  rw [(List.mem_replicate.mp hc).2]
  decide

theorem exponentDigits_ne_nil (n : ℕ) : exponentDigits n ≠ [] := by
  unfold exponentDigits
  split_ifs
  · exact List.cons_ne_nil _ _
  · exact Nat.toDigits_ne_nil

theorem isDigit_exponentDigits (n : ℕ) : ∀ c ∈ exponentDigits n, c.isDigit := by
  intro c hc
  unfold exponentDigits at hc
  split_ifs at hc
  · rcases List.mem_cons.mp hc with rfl | hc
    · decide
    · exact isDigit_toDigits n c hc
  · exact isDigit_toDigits n c hc

theorem digits_exponentDigits (n : ℕ) : digits (exponentDigits n) = some n := by
  rw [digits_eq (exponentDigits_ne_nil n) (isDigit_exponentDigits n)]
  unfold exponentDigits
  split_ifs
  · simp [Nat.ofDigitChars_cons]
  · simp

theorem signed_exponentText (e : ℤ) : signed (exponentText e) = some e := by
  unfold exponentText
  split_ifs with hsign
  · have habs : -(e.natAbs : ℤ) = e := by omega
    rw [signed, digits_exponentDigits, Option.map_some, habs]
  · have habs : (e.natAbs : ℤ) = e := by omega
    rw [signed, digits_exponentDigits, Option.map_some, habs]

theorem printed_exponentText (e : ℤ) : ∀ c ∈ 'e' :: exponentText e, Printed c := by
  intro c hc
  unfold exponentText at hc
  simp only [List.mem_cons] at hc
  rcases hc with rfl | rfl | hc
  · decide
  · split <;> decide
  · exact Or.inl (isDigit_exponentDigits _ c hc)

theorem ofDigitChars_zeros_append (n : ℕ) (digits : List Char) (k : ℕ) :
    Nat.ofDigitChars 10 (List.replicate n '0' ++ digits ++ List.replicate k '0') 0 =
      10 ^ k * Nat.ofDigitChars 10 digits 0 := by
  simp [Nat.ofDigitChars_append]

theorem fixedText_eq {digits : List Char} (hne : digits ≠ []) (h : ∀ c ∈ digits, c.isDigit)
    (point : ℤ) :
    ∃ whole fraction, fixedText digits point = whole ++ '.' :: fraction ∧ whole ≠ [] ∧
      (∀ c ∈ whole ++ fraction, c.isDigit) ∧
      (Nat.ofDigitChars 10 (whole ++ fraction) 0 : ℚ) / 10 ^ fraction.length =
        Nat.ofDigitChars 10 digits 0 * 10 ^ (point - digits.length) := by
  set whole := List.replicate (1 - point).toNat '0' ++ digits with hwhole
  set place := (max point 1).toNat with hplace
  set padded := whole ++ List.replicate (place + 1 - whole.length) '0' with hpadded
  have hpositive : 0 < digits.length := List.length_pos_iff.mpr hne
  have hlength : place + 1 ≤ padded.length := by
    rw [hpadded, List.length_append, List.length_replicate]
    omega
  refine ⟨padded.take place, padded.drop place, rfl, ?_, ?_, ?_⟩
  · rw [← List.length_pos_iff, List.length_take]
    omega
  · rw [List.take_append_drop]
    intro c hc
    rcases List.mem_append.mp hc with hc | hc
    · rcases List.mem_append.mp hc with hc | hc
      · exact isDigit_replicate_zero _ c hc
      · exact h c hc
    · exact isDigit_replicate_zero _ c hc
  · have hwholeLength : whole.length = (1 - point).toNat + digits.length := by simp [hwhole]
    have hpaddedLength : padded.length = whole.length + (place + 1 - whole.length) := by
      simp [hpadded]
    have hexp : ((place + 1 - whole.length : ℕ) : ℤ) - (padded.length - place : ℕ) =
        point - digits.length := by omega
    rw [List.take_append_drop, List.length_drop, ← hexp, zpow_sub₀ (by norm_num), zpow_natCast,
      zpow_natCast, hpadded, hwhole, ofDigitChars_zeros_append]
    push_cast
    ring

theorem scientificText_eq {digits : List Char} (hne : digits ≠ [])
    (h : ∀ c ∈ digits, c.isDigit) (point : ℤ) :
    ∃ text m, scientificText digits point = text ++ 'e' :: exponentText (point - 1) ∧
      (∃ first rest, text = first :: rest ∧ first.isDigit) ∧ Mantissa text ∧
      mantissa text = some m ∧
      m * 10 ^ (point - 1) = Nat.ofDigitChars 10 digits 0 * 10 ^ (point - digits.length) := by
  cases digits with
  | nil => exact absurd rfl hne
  | cons first rest =>
      have hfirst : first.isDigit := h first (by simp)
      by_cases hrest : rest = []
      · subst hrest
        refine ⟨[first], _, rfl, ⟨first, [], rfl, hfirst⟩, ?_,
          mantissa_whole (List.cons_ne_nil _ _) h, ?_⟩
        · intro c hc
          exact Or.inl (h c hc)
        · simp
      · have hmantissa := mantissa_fraction (List.cons_ne_nil first []) (by simpa using h)
        refine ⟨first :: '.' :: rest, _, ?_, ⟨first, _, rfl, hfirst⟩, ?_, hmantissa, ?_⟩
        · simp [scientificText, hrest]
        · intro c hc
          simp only [List.mem_cons] at hc
          rcases hc with rfl | rfl | hc
          · exact Or.inl hfirst
          · exact Or.inr rfl
          · exact Or.inl (h c (List.mem_cons_of_mem _ hc))
        · have hexp : point - 1 - rest.length = point - (first :: rest).length := by
            rw [List.length_cons]
            push_cast
            ring
          rw [← hexp, zpow_sub₀ (by norm_num : (10 : ℚ) ≠ 0) (point - 1), zpow_natCast]
          simp only [List.singleton_append]
          ring

theorem significantDigits_spec {x : ℚ} (hx : 0 < x) :
    (significantDigits x).1 ≠ [] ∧ (∀ c ∈ (significantDigits x).1, c.isDigit) ∧
      roundDigits 10 12 x = Nat.ofDigitChars 10 (significantDigits x).1 0 *
        10 ^ ((significantDigits x).2 - (significantDigits x).1.length) := by
  set unit := lastDigitExponent 10 12 x with hunit
  set n := (roundHalfEven (x / 10 ^ unit)).toNat with hn
  set all := Nat.toDigits 10 n with hall
  have hdigits : significantDigits x = (all.rdropWhile (· = '0'), all.length + unit) := rfl
  simp only [hdigits]
  -- The zeros cut off at the end.
  obtain ⟨k, hk⟩ : ∃ k, all = all.rdropWhile (· = '0') ++ List.replicate k '0' := by
    refine ⟨(all.rtakeWhile (· = '0')).length, ?_⟩
    have hzeros : all.rtakeWhile (· = '0') =
        List.replicate (all.rtakeWhile (· = '0')).length '0' := by
      rw [List.eq_replicate_iff]
      exact ⟨rfl, fun c hc => by simpa using List.mem_rtakeWhile_imp hc⟩
    rw [← hzeros, List.rdropWhile_append_rtakeWhile]
  set kept := all.rdropWhile (· = '0') with hkept
  have hvalue : n = 10 ^ k * Nat.ofDigitChars 10 kept 0 := by
    have h := Nat.ofDigitChars_ten_toDigits (n := n)
    rw [← hall, hk, Nat.ofDigitChars_append, Nat.ofDigitChars_replicate_zero] at h
    exact h.symm
  have hone : 1 ≤ roundHalfEven (x / 10 ^ unit) := by
    apply le_roundHalfEven
    have h := (abs_div_zpow_lastDigitExponent (b := 10) (by norm_num) 12 hx.ne').1
    rw [abs_of_pos hx] at h
    refine le_trans ?_ h
    norm_num
  have hround : (n : ℤ) = roundHalfEven (x / 10 ^ unit) := by omega
  refine ⟨?_, ?_, ?_⟩
  · intro hnil
    rw [hnil] at hvalue
    simp at hvalue
    omega
  · intro c hc
    apply isDigit_toDigits n c
    rw [← hall, hk]
    exact List.mem_append_left _ hc
  · have hlength : (all.length : ℤ) = kept.length + k := by
      rw [hk, List.length_append, List.length_replicate]
      push_cast
      rfl
    have hexp : (all.length : ℤ) + unit - kept.length = k + unit := by omega
    have hround' : (roundHalfEven (x / 10 ^ unit) : ℚ) =
        10 ^ k * Nat.ofDigitChars 10 kept 0 := by
      rw [← hround, hvalue]
      push_cast
      rfl
    rw [roundDigits, if_neg hx.ne', hexp, zpow_add₀ (by norm_num), zpow_natCast, Nat.cast_ofNat,
      hround']
    ring

theorem exists_positiveStr {x : ℚ} (hx : 0 < x) :
    ∃ first rest, positiveStr x = first :: rest ∧ first.isDigit ∧
      (∀ c ∈ first :: rest, Printed c) ∧
      unsignedDecimal (first :: rest) = some (roundDigits 10 12 x) := by
  obtain ⟨hne, hdigits, hvalue⟩ := significantDigits_spec hx
  have hstr : positiveStr x =
      if (significantDigits x).2 ≤ -4 ∨ 11 < (significantDigits x).2 then
        scientificText (significantDigits x).1 (significantDigits x).2
      else fixedText (significantDigits x).1 (significantDigits x).2 := rfl
  rw [hstr]
  split_ifs
  · obtain ⟨text, m, htext, ⟨first, rest, rfl, hfirst⟩, hmantissa, hm, heq⟩ :=
      scientificText_eq hne hdigits (significantDigits x).2
    refine ⟨first, rest ++ 'e' :: exponentText ((significantDigits x).2 - 1), htext, hfirst,
      ?_, ?_⟩
    · intro c hc
      rw [← List.cons_append] at hc
      rcases List.mem_append.mp hc with hc | hc
      · exact hmantissa.printed c hc
      · exact printed_exponentText _ c hc
    · rw [← List.cons_append, unsignedDecimal_exponent hmantissa, hm, signed_exponentText,
        hvalue, ← heq]
      rfl
  · obtain ⟨whole, fraction, htext, hwhole, hall, heq⟩ :=
      fixedText_eq hne hdigits (significantDigits x).2
    obtain ⟨first, rest, rfl⟩ := List.exists_cons_of_ne_nil hwhole
    have hmantissa : Mantissa (first :: rest ++ '.' :: fraction) := by
      intro c hc
      rcases List.mem_append.mp hc with hc | hc
      · exact Or.inl (hall c (List.mem_append_left _ hc))
      · rcases List.mem_cons.mp hc with rfl | hc
        · exact Or.inr rfl
        · exact Or.inl (hall c (List.mem_append_right _ hc))
    refine ⟨first, rest ++ '.' :: fraction, htext, hall first (by simp), hmantissa.printed, ?_⟩
    · rw [← List.cons_append, unsignedDecimal_mantissa hmantissa, mantissa_fraction hwhole hall,
        heq, hvalue]

theorem printed_pyStr (x : ℚ) : ∀ c ∈ pyStr x, Printed c := by
  unfold pyStr
  split_ifs with hzero hneg
  · simp [Printed]
  · obtain ⟨first, rest, htext, -, hprinted, -⟩ := exists_positiveStr (neg_pos.mpr hneg)
    rw [htext]
    intro c hc
    rcases List.mem_cons.mp hc with rfl | hc
    · decide
    · exact hprinted c hc
  · obtain ⟨first, rest, htext, -, hprinted, -⟩ :=
      exists_positiveStr (lt_of_le_of_ne (not_lt.mp hneg) (Ne.symm hzero))
    rw [htext]
    exact hprinted

/-- Read back, a printed number is the number rounded to twelve digits. -/
theorem decimal_pyStr (x : ℚ) : decimal (pyStr x) = some (roundDigits 10 12 x) := by
  unfold pyStr
  split_ifs with hzero hneg
  · rw [hzero]
    decide +kernel
  · obtain ⟨first, rest, htext, -, hprinted, hvalue⟩ := exists_positiveStr (neg_pos.mpr hneg)
    rw [htext, decimal_negative hprinted, hvalue, Option.map_some, roundDigits_neg, neg_neg]
  · obtain ⟨first, rest, htext, hfirst, hprinted, hvalue⟩ :=
      exists_positiveStr (lt_of_le_of_ne (not_lt.mp hneg) (Ne.symm hzero))
    rw [htext, decimal_positive hfirst hprinted, hvalue]

example : pyStr (39 / 10) = "3.9".toList := by decide +kernel

example : pyStr (-1234567890123 / 10) = "-1.23456789012e+11".toList := by decide +kernel

end SoftwareSwitches.Histogram
