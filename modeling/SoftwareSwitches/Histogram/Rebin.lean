import SoftwareSwitches.Lib.GreedyCut
import Mathlib.Algebra.BigOperators.Group.List.Basic
import Mathlib.Data.List.AList
import Mathlib.Data.List.Sort
import Mathlib.Algebra.Field.Rat
import Mathlib.Tactic.Ring

/-!
# Re-binning one latency histogram

`analyze_histogram.py` reads the rows `latency_ns,count` of a file, adds the counts
up by latency rounded to 0.1 us, and sweeps over the sorted keys, merging what lies
within `step = 0.3` of the first key of a bin.

The model is generic in the script's number operations, so that the same loops run
on exact ticks of 0.1 us and on binary64 numbers.
-/

namespace SoftwareSwitches.Histogram

open SoftwareSwitches.Lib.GreedyCut

abbrev Line := List Char

/-- What the script uses of Python's `float`; `K` holds the values of `curr_bin`. -/
structure Python (K : Type*) where
  /-- `float(text)`, `none` for a `ValueError`. -/
  float : List Char → Option ℚ
  /-- `round(latency/1000, 1)`. -/
  currBin : ℚ → K
  /-- The integer 0 the script starts `prev_bin` from. -/
  zero : K
  /-- `(curr_bin - prev_bin) < 0.3`. -/
  near : K → K → Bool
  /-- `start+step`. -/
  limit : K → K
  str : K → List Char

inductive PyError where
  | valueError
  | indexError
  | ioError
deriving DecidableEq

structure Row where
  latency : ℚ
  count : ℤ
deriving DecidableEq

/-! ## Reading a row -/

def isSpace (c : Char) : Bool := c ∈ [' ', '\t', '\n', '\r', '\x0b', '\x0c']

def strip (text : List Char) : List Char :=
  ((text.dropWhile isSpace).reverse.dropWhile isSpace).reverse

def digits (text : List Char) : Option ℕ :=
  if text ≠ [] ∧ text.all Char.isDigit then
    some (text.foldl (fun n c => 10 * n + (c.toNat - '0'.toNat)) 0)
  else none

def signed (text : List Char) : Option ℤ :=
  match text with
  | '-' :: rest => (digits rest).map fun n : ℕ => -(n : ℤ)
  | '+' :: rest => (digits rest).map fun n : ℕ => (n : ℤ)
  | rest => (digits rest).map fun n : ℕ => (n : ℤ)

/-- `int(text)`, `none` for a `ValueError`. -/
def int (text : List Char) : Option ℤ := signed (strip text)

def mantissa (text : List Char) : Option ℚ :=
  match text.splitOn '.' with
  | [whole] => (digits whole).map fun n : ℕ => (n : ℚ)
  | [whole, fraction] =>
    (digits (whole ++ fraction)).map fun n : ℕ => (n : ℚ) / 10 ^ fraction.length
  | _ => none

def unsignedDecimal (text : List Char) : Option ℚ := do
  let m ← mantissa (text.takeWhile fun c => c ≠ 'e' ∧ c ≠ 'E')
  match text.dropWhile fun c => c ≠ 'e' ∧ c ≠ 'E' with
  | [] => some m
  | _ :: exponent => (signed exponent).map fun e : ℤ => m * 10 ^ e

/-- The number a decimal literal stands for, before it is rounded; `inf` and `nan`,
which Python takes as well, are left out. -/
def decimal (text : List Char) : Option ℚ :=
  match strip text with
  | '-' :: rest => (unsignedDecimal rest).map fun m : ℚ => -m
  | '+' :: rest => unsignedDecimal rest
  | rest => unsignedDecimal rest

variable {K : Type*}

/-- The latency is converted before the second field is looked at. -/
def parseRow (P : Python K) (l : Line) : Except PyError Row :=
  match (strip l).splitOn ',' with
  | [] => .error .indexError
  | first :: values =>
    match P.float first with
    | none => .error .valueError
    | some latency =>
      match values with
      | [] => .error .indexError
      | second :: _ =>
        match int second with
        | none => .error .valueError
        | some count => .ok ⟨latency, count⟩

/-! ## The row loop -/

structure RowState (K : Type*) where
  prevBin : K
  prevVal : ℤ
  currBin : K
  currVal : ℤ
  hashtab : AList (fun _ : K => ℤ)

def RowState.init (P : Python K) : RowState K where
  prevBin := P.zero
  prevVal := 0
  currBin := P.zero
  currVal := 0
  hashtab := ∅

variable [LinearOrder K]

def rowStep (P : Python K) (st : RowState K) (row : Row) : RowState K :=
  let currBin := P.currBin row.latency
  let currVal := if P.near currBin st.prevBin then st.currVal + row.count else row.count
  let hashtab := match st.hashtab.lookup currBin with
    | none => st.hashtab.insert currBin row.count
    | some n => st.hashtab.insert currBin (n + row.count)
  { prevBin := currBin, prevVal := currVal, currBin := currBin, currVal := currVal,
    hashtab := hashtab }

def rowLoop (P : Python K) : RowState K → List Line → Except PyError (RowState K)
  | st, [] => .ok st
  | st, l :: lines =>
    match parseRow P l with
    | .error e => .error e
    | .ok row => rowLoop P (rowStep P st row) lines

/-! ## The sweep -/

def value (hashtab : AList (fun _ : K => ℤ)) (i : K) : ℤ := (hashtab.lookup i).getD 0

/-- The binning loop, from an open bin; the last bin is written after the loop. -/
def sweep (P : Python K) (hashtab : AList (fun _ : K => ℤ)) :
    K → ℤ → List K → List (K × ℤ)
  | start, val, [] => [(start, val)]
  | start, val, i :: k =>
    if start ≤ i ∧ i < P.limit start then sweep P hashtab start (val + value hashtab i) k
    else (start, val) :: sweep P hashtab i (value hashtab i) k

def sortedKeys (hashtab : AList (fun _ : K => ℤ)) : List K :=
  hashtab.keys.insertionSort (· ≤ ·)

def binning (P : Python K) (hashtab : AList (fun _ : K => ℤ)) :
    Except PyError (List (K × ℤ)) :=
  match sortedKeys hashtab with
  | [] => .error .indexError
  | start :: k => .ok (sweep P hashtab start 0 (start :: k))

def rebin (P : Python K) (lines : List Line) : Except PyError (List (K × ℤ)) :=
  match rowLoop P (RowState.init P) lines.tail with
  | .error e => .error e
  | .ok st => binning P st.hashtab

/-! ## The table after the row loop -/

def key (P : Python K) (row : Row) : K := P.currBin row.latency

def fill (P : Python K) (rows : List Row) : AList (fun _ : K => ℤ) :=
  (rows.foldl (rowStep P) (RowState.init P)).hashtab

omit [LinearOrder K] in
theorem mapM_parseRow_cons {P : Python K} {l : Line} {lines : List Line} {rows : List Row}
    (h : (l :: lines).mapM (parseRow P) = .ok rows) :
    ∃ row rest, parseRow P l = .ok row ∧ lines.mapM (parseRow P) = .ok rest ∧
      rows = row :: rest := by
  rw [List.mapM_cons] at h
  cases hrow : parseRow P l with
  | error e =>
      rw [hrow] at h
      cases h
  | ok row =>
      rw [hrow] at h
      cases hrest : lines.mapM (parseRow P) with
      | error e =>
          rw [hrest] at h
          cases h
      | ok rest =>
          rw [hrest] at h
          cases h
          exact ⟨row, rest, rfl, rfl, rfl⟩

theorem rowLoop_eq_ok (P : Python K) {lines : List Line} {rows : List Row}
    (h : lines.mapM (parseRow P) = .ok rows) (st : RowState K) :
    rowLoop P st lines = .ok (rows.foldl (rowStep P) st) := by
  induction lines generalizing rows st with
  | nil =>
      cases h
      rfl
  | cons l lines ih =>
      obtain ⟨row, rest, hrow, hrest, rfl⟩ := mapM_parseRow_cons h
      rw [rowLoop, hrow]
      exact ih hrest (rowStep P st row)

theorem rebin_eq_binning (P : Python K) (first : Line) {lines : List Line}
    {rows : List Row} (h : lines.mapM (parseRow P) = .ok rows) :
    rebin P (first :: lines) = binning P (fill P rows) := by
  simp only [rebin, List.tail_cons, rowLoop_eq_ok P h]
  rfl

theorem mem_rowStep (P : Python K) (st : RowState K) (row : Row) (k : K) :
    k ∈ (rowStep P st row).hashtab ↔ k = key P row ∨ k ∈ st.hashtab := by
  simp only [rowStep]
  split <;> exact AList.mem_insert st.hashtab

theorem value_rowStep (P : Python K) (st : RowState K) (row : Row) (k : K) :
    value (rowStep P st row).hashtab k =
      value st.hashtab k + if key P row = k then row.count else 0 := by
  by_cases hk : k = key P row
  · subst hk
    simp only [rowStep, value]
    cases hlookup : st.hashtab.lookup (P.currBin row.latency) with
    | none => simp [key, hlookup]
    | some n => simp [key, hlookup]
  · have hne : k ≠ P.currBin row.latency := hk
    have hne' : ¬ key P row = k := fun h => hk h.symm
    simp only [rowStep, value]
    cases hlookup : st.hashtab.lookup (P.currBin row.latency) with
    | none => simp [AList.lookup_insert_ne hne, hne']
    | some n => simp [AList.lookup_insert_ne hne, hne']

def countAt (P : Python K) (rows : List Row) (k : K) : ℤ :=
  ((rows.filter (key P · = k)).map Row.count).sum

theorem mem_fill (P : Python K) (rows : List Row) (k : K) :
    k ∈ fill P rows ↔ ∃ row ∈ rows, key P row = k := by
  have hfold : ∀ st : RowState K, k ∈ (rows.foldl (rowStep P) st).hashtab ↔
      (∃ row ∈ rows, key P row = k) ∨ k ∈ st.hashtab := by
    induction rows with
    | nil => simp
    | cons row rows ih =>
        intro st
        rw [List.foldl_cons, ih, mem_rowStep, eq_comm (a := k)]
        simp only [List.mem_cons, exists_eq_or_imp]
        rw [or_left_comm, or_assoc]
  simpa [fill, RowState.init] using hfold (RowState.init P)

theorem value_fill (P : Python K) (rows : List Row) (k : K) :
    value (fill P rows) k = countAt P rows k := by
  have hfold : ∀ st : RowState K, value (rows.foldl (rowStep P) st).hashtab k =
      value st.hashtab k + countAt P rows k := by
    induction rows with
    | nil => simp [countAt]
    | cons row rows ih =>
        intro st
        rw [List.foldl_cons, ih, value_rowStep]
        by_cases hk : key P row = k
        · simp [countAt, hk]
          ring
        · simp [countAt, hk]
  simpa [fill, RowState.init, value] using hfold (RowState.init P)

theorem pairwise_sortedKeys (hashtab : AList (fun _ : K => ℤ)) :
    (sortedKeys hashtab).Pairwise (· < ·) := by
  have hle : (sortedKeys hashtab).Pairwise (· ≤ ·) := List.pairwise_insertionSort _ _
  have hnodup : (sortedKeys hashtab).Nodup :=
    (List.perm_insertionSort _ _).nodup_iff.mpr hashtab.keys_nodup
  exact hle.imp₂ (fun _ _ h hne => lt_of_le_of_ne h hne) hnodup

theorem nodup_sortedKeys (hashtab : AList (fun _ : K => ℤ)) : (sortedKeys hashtab).Nodup :=
  (pairwise_sortedKeys hashtab).imp fun h => ne_of_lt h

theorem mem_sortedKeys_fill (P : Python K) (rows : List Row) (k : K) :
    k ∈ sortedKeys (fill P rows) ↔ ∃ row ∈ rows, key P row = k := by
  rw [sortedKeys, List.mem_insertionSort, ← mem_fill]
  exact AList.mem_keys.symm

theorem sum_value_filter (P : Python K) (rows : List Row) (p : K → Bool) :
    (((sortedKeys (fill P rows)).filter p).map (value (fill P rows))).sum =
      ((rows.filter (p <| key P ·)).map Row.count).sum := by
  have hnodup : ((sortedKeys (fill P rows)).filter p).Nodup :=
    (nodup_sortedKeys _).filter p
  have hcells := sum_map_sum_filter ((sortedKeys (fill P rows)).filter p) rows
    (fun k row => key P row = k) Row.count
  have hcount : ∀ row ∈ rows, ((sortedKeys (fill P rows)).filter p).countP
      (fun k => decide (key P row = k)) = if p (key P row) then 1 else 0 := by
    intro row hrow
    by_cases hp : p (key P row)
    · have hmem : key P row ∈ (sortedKeys (fill P rows)).filter p := by
        rw [List.mem_filter, mem_sortedKeys_fill]
        exact ⟨⟨row, hrow, rfl⟩, hp⟩
      rw [if_pos hp]
      apply countP_eq_one hnodup hmem
      intro k _
      simp [eq_comm]
    · rw [if_neg hp, List.countP_eq_zero]
      intro k hk hkey
      have hkey' : key P row = k := by simpa using hkey
      rw [List.mem_filter, ← hkey'] at hk
      exact hp hk.2
  have hvalue : value (fill P rows) =
      fun k => ((rows.filter (key P · = k)).map Row.count).sum := by
    funext k
    exact value_fill P rows k
  rw [hvalue, hcells, sum_map_filter]
  congr 1
  apply List.map_congr_left
  intro row hrow
  rw [hcount row hrow]
  split <;> simp

/-! ## What the sweep writes -/

theorem sweep_eq_cut (P : Python K) (hashtab : AList (fun _ : K => ℤ)) (start : K)
    (taken k : List K) :
    sweep P hashtab start (taken.map (value hashtab)).sum k =
      (cut P.limit start taken k).map fun bin =>
        (bin.1, (bin.2.map (value hashtab)).sum) := by
  induction k generalizing start taken with
  | nil => rfl
  | cons i k ih =>
      by_cases htest : start ≤ i ∧ i < P.limit start
      · have hsum : (taken.map (value hashtab)).sum + value hashtab i =
            ((taken ++ [i]).map (value hashtab)).sum := by simp
        rw [sweep, if_pos htest, cut_cons_of_accepts htest, hsum, ih]
      · have hopen := ih i [i]
        simp only [List.map_cons, List.map_nil, List.sum_cons, List.sum_nil, add_zero]
          at hopen
        rw [sweep, if_neg htest, cut_cons_of_not_accepts htest, List.map_cons, hopen]

theorem binning_eq_cutAll (P : Python K) {hashtab : AList (fun _ : K => ℤ)}
    (hkeys : sortedKeys hashtab ≠ []) :
    binning P hashtab = .ok ((cutAll P.limit (sortedKeys hashtab)).map fun bin =>
      (bin.1, (bin.2.map (value hashtab)).sum)) := by
  obtain ⟨first, rest, hcons⟩ := List.exists_cons_of_ne_nil hkeys
  have hsweep := sweep_eq_cut P hashtab first [] (first :: rest)
  rw [binning, hcons, cutAll, ← hsweep]
  rfl

theorem sortedKeys_fill_ne_nil (P : Python K) {rows : List Row} (hrows : rows ≠ []) :
    sortedKeys (fill P rows) ≠ [] := by
  obtain ⟨row, hrow⟩ := List.exists_mem_of_ne_nil rows hrows
  exact List.ne_nil_of_mem ((mem_sortedKeys_fill P rows _).mpr ⟨row, hrow, rfl⟩)

theorem binning_fill_eq (P : Python K) {rows : List Row} (hrows : rows ≠ []) :
    binning P (fill P rows) =
      .ok ((cutAll P.limit (sortedKeys (fill P rows))).map fun bin =>
        (bin.1, ((rows.filter (key P · ∈ bin.2)).map Row.count).sum)) := by
  rw [binning_eq_cutAll P (sortedKeys_fill_ne_nil P hrows)]
  congr 1
  apply List.map_congr_left
  intro bin hbin
  have hsublist := sublist_of_mem_cutAll hbin
  have hkeys := nodup_sortedKeys (fill P rows)
  have hperm : bin.2.Perm ((sortedKeys (fill P rows)).filter (· ∈ bin.2)) := by
    rw [List.perm_ext_iff_of_nodup (hkeys.sublist hsublist) (hkeys.filter _)]
    intro k
    simp only [List.mem_filter, decide_eq_true_eq]
    exact ⟨fun hk => ⟨hsublist.subset hk, hk⟩, fun hk => hk.2⟩
  refine Prod.ext rfl ?_
  rw [← sum_value_filter P rows fun k => decide (k ∈ bin.2)]
  exact (hperm.map _).sum_eq

def keySet (P : Python K) (rows : List Row) : Set K := {k | ∃ row ∈ rows, key P row = k}

structure Rebinned (P : Python K) (rows : List Row) (s : K) (starts : List K)
    (bins : List (K × ℤ)) : Prop where
  starts_eq : bins.map Prod.fst = s :: starts
  first : IsLeast (keySet P rows) s
  greedy : GreedyFrom P.limit (keySet P rows) s starts
  count : ∀ bin ∈ bins,
    bin.2 = ((rows.filter (Accepts P.limit bin.1 <| key P ·)).map Row.count).sum

theorem binning_fill_rebinned (P : Python K) (hlimit : ∀ s, s < P.limit s)
    {rows : List Row} (hrows : rows ≠ []) :
    ∃ s starts bins, binning P (fill P rows) = .ok bins ∧
      Rebinned P rows s starts bins := by
  obtain ⟨first, rest, hkeys⟩ :=
    List.exists_cons_of_ne_nil (sortedKeys_fill_ne_nil P hrows)
  have hmem : ∀ k, k ∈ first :: rest ↔ k ∈ keySet P rows := by
    intro k
    rw [← hkeys]
    exact mem_sortedKeys_fill P rows k
  have hle : (first :: rest).Pairwise (· ≤ ·) := by
    rw [← hkeys]
    exact (pairwise_sortedKeys _).imp le_of_lt
  have hsorted := pairwise_cons_head hle
  have hfirst : ∀ k ∈ first :: rest, first ≤ k := (List.pairwise_cons.mp hsorted).1
  obtain ⟨more, bins, hcut⟩ :=
    exists_cut_eq_cons P.limit first [] (first :: rest)
  have hgreedy := greedyFrom_cut [] hlimit hsorted
    (fun k hk => (hmem k).mp hk) (fun k hk => Or.inl ((hmem k).mpr hk))
  have hbins := binning_eq_cutAll P (sortedKeys_fill_ne_nil P hrows)
  simp only [hkeys, cutAll] at hbins
  refine ⟨first, _, _, hbins, ⟨?_, ⟨(hmem first).mp (by simp), ?_⟩,
    hgreedy, ?_⟩⟩
  · rw [hcut]
    simp
  · intro k hk
    exact hfirst k ((hmem k).mpr hk)
  · intro bin hbin
    obtain ⟨group, hgroup, rfl⟩ := List.mem_map.mp hbin
    have htaken := cut_taken_eq_filter [] [] hlimit hsorted
      (by simp) (by simp) group hgroup
    simp only [List.nil_append] at htaken
    rw [htaken, ← hkeys]
    exact sum_value_filter P rows fun k => Accepts P.limit group.1 k

section Rebinned

variable {P : Python K} {rows : List Row} {s : K} {starts : List K} {bins : List (K × ℤ)}

theorem Rebinned.mem_starts (h : Rebinned P rows s starts bins) {bin : K × ℤ}
    (hbin : bin ∈ bins) : bin.1 ∈ s :: starts := by
  rw [← h.starts_eq]
  exact List.mem_map_of_mem hbin

theorem Rebinned.existsUnique_start (h : Rebinned P rows s starts bins)
    (hlimit : ∀ s, s < P.limit s) {row : Row} (hrow : row ∈ rows) :
    ∃ t ∈ s :: starts, ∀ u ∈ s :: starts, Accepts P.limit u (key P row) ↔ u = t := by
  have hkey : key P row ∈ keySet P rows := ⟨row, hrow, rfl⟩
  obtain ⟨t, ht, haccepts⟩ := h.greedy.exists_accepts hlimit hkey (h.first.2 hkey)
  refine ⟨t, ht, ?_⟩
  intro u hu
  constructor
  · intro haccepts'
    exact h.greedy.accepts_unique hu ht haccepts' haccepts
  · rintro rfl
    exact haccepts

theorem Rebinned.existsUnique_bin (h : Rebinned P rows s starts bins)
    (hlimit : ∀ s, s < P.limit s) {row : Row} (hrow : row ∈ rows) :
    ∃! bin, bin ∈ bins ∧ Accepts P.limit bin.1 (key P row) := by
  obtain ⟨t, ht, hunique⟩ := h.existsUnique_start hlimit hrow
  rw [← h.starts_eq] at ht
  obtain ⟨bin, hbin, rfl⟩ := List.mem_map.mp ht
  refine ⟨bin, ⟨hbin, (hunique bin.1 (h.mem_starts hbin)).mpr rfl⟩, ?_⟩
  rintro other ⟨hother, haccepts⟩
  have hsame := (hunique other.1 (h.mem_starts hother)).mp haccepts
  apply Prod.ext hsame
  rw [h.count other hother, h.count bin hbin, hsame]

theorem Rebinned.sum_bins {M : Type*} [AddCommMonoid M] (h : Rebinned P rows s starts bins)
    (hlimit : ∀ s, s < P.limit s) (f : Row → M) :
    ((s :: starts).map fun t =>
      ((rows.filter (Accepts P.limit t <| key P ·)).map f).sum).sum = (rows.map f).sum := by
  have hnodup : (s :: starts).Nodup := h.greedy.pairwise_lt.imp fun hlt => ne_of_lt hlt
  rw [sum_map_sum_filter _ rows (fun t row => decide (Accepts P.limit t (key P row)))]
  congr 1
  apply List.map_congr_left
  intro row hrow
  obtain ⟨t, ht, hunique⟩ := h.existsUnique_start hlimit hrow
  rw [countP_eq_one hnodup ht (by simpa using hunique), one_nsmul]

theorem Rebinned.bins_eq (h : Rebinned P rows s starts bins) :
    bins = (s :: starts).map fun t =>
      (t, ((rows.filter (Accepts P.limit t <| key P ·)).map Row.count).sum) := by
  rw [← h.starts_eq, List.map_map]
  conv_lhs => rw [← List.map_id bins]
  apply List.map_congr_left
  intro bin hbin
  exact Prod.ext rfl (h.count bin hbin)

theorem Rebinned.total (h : Rebinned P rows s starts bins) (hlimit : ∀ s, s < P.limit s) :
    (bins.map Prod.snd).sum = (rows.map Row.count).sum := by
  rw [h.bins_eq, List.map_map]
  exact h.sum_bins hlimit Row.count

end Rebinned

/-! ## The order of the rows -/

theorem sortedKeys_fill_perm (P : Python K) {rows rows' : List Row} (h : rows.Perm rows') :
    sortedKeys (fill P rows) = sortedKeys (fill P rows') := by
  have hkeys : (sortedKeys (fill P rows)).Perm (sortedKeys (fill P rows')) := by
    rw [List.perm_ext_iff_of_nodup]
    · intro k
      rw [mem_sortedKeys_fill, mem_sortedKeys_fill]
      simp only [h.mem_iff]
    · exact nodup_sortedKeys _
    · exact nodup_sortedKeys _
  exact hkeys.eq_of_pairwise' ((pairwise_sortedKeys _).imp le_of_lt)
    ((pairwise_sortedKeys _).imp le_of_lt)

theorem value_fill_perm (P : Python K) {rows rows' : List Row} (h : rows.Perm rows') :
    value (fill P rows) = value (fill P rows') := by
  funext k
  rw [value_fill, value_fill]
  exact ((h.filter _).map _).sum_eq

theorem binning_fill_perm (P : Python K) {rows rows' : List Row} (h : rows.Perm rows') :
    binning P (fill P rows) = binning P (fill P rows') := by
  have hkeys := sortedKeys_fill_perm P h
  cases hsorted : sortedKeys (fill P rows) with
  | nil =>
      rw [binning, binning, ← hkeys, hsorted]
  | cons first rest =>
      have hne : sortedKeys (fill P rows) ≠ [] := by simp [hsorted]
      rw [binning_eq_cutAll P hne, binning_eq_cutAll P (hkeys ▸ hne), hkeys,
        value_fill_perm P h]

end SoftwareSwitches.Histogram
