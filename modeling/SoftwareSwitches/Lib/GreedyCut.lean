import Mathlib.Data.List.Pairwise
import Mathlib.Order.Bounds.Basic
import Mathlib.Order.MinMax
import Mathlib.Algebra.BigOperators.Group.List.Basic
import Mathlib.Data.List.Nodup
import Mathlib.Tactic.SplitIfs
import Mathlib.Tactic.Tauto

/-!
# Cutting sorted keys into intervals greedily

A bin opened at key `s` takes the keys in `[s, limit s)`; the first key it does
not take opens the next bin.  The first part states this for a set of keys: which
starts the bins have, and that every key is in exactly one of them.  The second
part is the sweep over a sorted list that computes the bins, the third compares
the sweeps of two limits.  The last part adds up over cells, bins or others.
-/

namespace SoftwareSwitches.Lib.GreedyCut

variable {K : Type*} [LinearOrder K] {limit : K → K}

def Accepts (limit : K → K) (s k : K) : Prop := s ≤ k ∧ k < limit s

instance (limit : K → K) (s k : K) : Decidable (Accepts limit s k) :=
  inferInstanceAs (Decidable (_ ∧ _))

def rejected (limit : K → K) (S : Set K) (s : K) : Set K :=
  {k | k ∈ S ∧ s < k ∧ ¬ Accepts limit s k}

/-- After the bin opened at `s` come the bins opened at `starts`: each at the least
key the bin before did not take, until there is none. -/
inductive GreedyFrom (limit : K → K) (S : Set K) : K → List K → Prop
  | last {s : K} (h : rejected limit S s = ∅) : GreedyFrom limit S s []
  | next {s t : K} {starts : List K} (h : IsLeast (rejected limit S s) t)
      (rest : GreedyFrom limit S t starts) : GreedyFrom limit S s (t :: starts)

theorem limit_le_of_not_accepts {s k : K} (hle : s ≤ k) (h : ¬ Accepts limit s k) :
    limit s ≤ k := by
  by_contra hlimit
  exact h ⟨hle, not_le.mp hlimit⟩

theorem lt_of_not_accepts (hlimit : ∀ s, s < limit s) {s k : K} (hle : s ≤ k)
    (h : ¬ Accepts limit s k) : s < k :=
  (hlimit s).trans_le (limit_le_of_not_accepts hle h)

section Starts

variable {S : Set K} {s : K} {starts : List K}

theorem GreedyFrom.limit_le (h : GreedyFrom limit S s starts) :
    ∀ t ∈ starts, s < t ∧ limit s ≤ t := by
  induction h with
  | last h => simp
  | @next s t starts hleast rest ih =>
      have hst : s < t ∧ limit s ≤ t :=
        ⟨hleast.1.2.1, limit_le_of_not_accepts hleast.1.2.1.le hleast.1.2.2⟩
      intro u hu
      rcases List.mem_cons.mp hu with rfl | hu
      · exact hst
      · have htu := (ih u hu).1
        exact ⟨hst.1.trans htu, hst.2.trans htu.le⟩

theorem GreedyFrom.pairwise_lt (h : GreedyFrom limit S s starts) :
    (s :: starts).Pairwise (· < ·) := by
  induction h with
  | last h => simp
  | next hleast rest ih =>
      rw [List.pairwise_cons]
      exact ⟨fun t ht => ((GreedyFrom.next hleast rest).limit_le t ht).1, ih⟩

theorem GreedyFrom.start_mem (h : GreedyFrom limit S s starts) : ∀ t ∈ starts, t ∈ S := by
  induction h with
  | last h => simp
  | next hleast rest ih =>
      intro u hu
      rcases List.mem_cons.mp hu with rfl | hu
      · exact hleast.1.1
      · exact ih u hu

theorem GreedyFrom.unique (h : GreedyFrom limit S s starts) {starts' : List K}
    (h' : GreedyFrom limit S s starts') : starts = starts' := by
  induction h generalizing starts' with
  | last hempty =>
      cases h' with
      | last => rfl
      | next hleast rest =>
          have hmem := hleast.1
          rw [hempty] at hmem
          exact absurd hmem (Set.notMem_empty _)
  | next hleast rest ih =>
      cases h' with
      | last hempty =>
          have hmem := hleast.1
          rw [hempty] at hmem
          exact absurd hmem (Set.notMem_empty _)
      | next hleast' rest' =>
          have hsame := hleast.unique hleast'
          subst hsame
          rw [ih rest']

theorem GreedyFrom.exists_accepts (h : GreedyFrom limit S s starts)
    (hlimit : ∀ s, s < limit s) {k : K} (hk : k ∈ S) (hsk : s ≤ k) :
    ∃ t ∈ s :: starts, Accepts limit t k := by
  induction h with
  | @last s hempty =>
      by_cases haccepts : Accepts limit s k
      · exact ⟨s, by simp, haccepts⟩
      · have hlt : s < k := lt_of_not_accepts hlimit hsk haccepts
        have hmem : k ∈ rejected limit S s := ⟨hk, hlt, haccepts⟩
        rw [hempty] at hmem
        exact absurd hmem (Set.notMem_empty k)
  | @next s t starts hleast rest ih =>
      by_cases haccepts : Accepts limit s k
      · exact ⟨s, by simp, haccepts⟩
      · have hlt : s < k := lt_of_not_accepts hlimit hsk haccepts
        obtain ⟨u, hu, haccepts'⟩ := ih (hleast.2 ⟨hk, hlt, haccepts⟩)
        exact ⟨u, List.mem_cons_of_mem s hu, haccepts'⟩

theorem GreedyFrom.limit_le_of_lt (h : GreedyFrom limit S s starts) {t u : K}
    (ht : t ∈ s :: starts) (hu : u ∈ s :: starts) (htu : t < u) : limit t ≤ u := by
  induction h with
  | last hempty =>
      rw [List.mem_singleton] at ht hu
      exact absurd (hu ▸ ht ▸ htu) (lt_irrefl _)
  | @next s v starts hleast rest ih =>
      have hhead := (GreedyFrom.next hleast rest).limit_le
      rcases List.mem_cons.mp ht with rfl | ht'
      · rcases List.mem_cons.mp hu with rfl | hu'
        · exact absurd htu (lt_irrefl _)
        · exact (hhead u hu').2
      · rcases List.mem_cons.mp hu with rfl | hu'
        · exact absurd htu (hhead t ht').1.not_gt
        · exact ih ht' hu'

theorem GreedyFrom.accepts_unique (h : GreedyFrom limit S s starts) {k t u : K}
    (ht : t ∈ s :: starts) (hu : u ∈ s :: starts) (hkt : Accepts limit t k)
    (hku : Accepts limit u k) : t = u := by
  rcases lt_trichotomy t u with htu | htu | htu
  · have hlater := h.limit_le_of_lt ht hu htu
    exact absurd hkt.2 (not_lt.mpr (hlater.trans hku.1))
  · exact htu
  · have hlater := h.limit_le_of_lt hu ht htu
    exact absurd hku.2 (not_lt.mpr (hlater.trans hkt.1))

end Starts

/-! ## The sweep -/

/-- The bins with their keys, from an open bin `s` that has taken `taken` and the
keys still to come. -/
def cut (limit : K → K) : K → List K → List K → List (K × List K)
  | s, taken, [] => [(s, taken)]
  | s, taken, k :: keys =>
    if Accepts limit s k then cut limit s (taken ++ [k]) keys
    else (s, taken) :: cut limit k [k] keys

theorem cut_cons_of_accepts {s k : K} (h : Accepts limit s k) (taken keys : List K) :
    cut limit s taken (k :: keys) = cut limit s (taken ++ [k]) keys := by
  simp [cut, h]

theorem cut_cons_of_not_accepts {s k : K} (h : ¬ Accepts limit s k)
    (taken keys : List K) :
    cut limit s taken (k :: keys) = (s, taken) :: cut limit k [k] keys := by
  simp [cut, h]

theorem exists_cut_eq_cons (limit : K → K) (s : K) (taken keys : List K) :
    ∃ more rest, cut limit s taken keys = (s, taken ++ more) :: rest := by
  induction keys generalizing taken with
  | nil => exact ⟨[], [], by simp [cut]⟩
  | cons k keys ih =>
      by_cases h : Accepts limit s k
      · obtain ⟨more, rest, hcut⟩ := ih (taken ++ [k])
        exact ⟨k :: more, rest, by rw [cut_cons_of_accepts h, hcut]; simp⟩
      · exact ⟨[], _, by rw [cut_cons_of_not_accepts h, List.append_nil]⟩

def cutAll (limit : K → K) : List K → List (K × List K)
  | [] => []
  | first :: keys => cut limit first [] (first :: keys)

theorem pairwise_cons_head {first : K} {keys : List K}
    (h : (first :: keys).Pairwise (· ≤ ·)) :
    (first :: first :: keys).Pairwise (· ≤ ·) := by
  refine List.pairwise_cons.mpr ⟨?_, h⟩
  intro k hk
  rcases List.mem_cons.mp hk with rfl | hk
  · exact le_rfl
  · exact (List.pairwise_cons.mp h).1 k hk

section Sweep

variable {s : K} {taken keys : List K}

theorem flatMap_cut : (cut limit s taken keys).flatMap Prod.snd = taken ++ keys := by
  induction keys generalizing s taken with
  | nil => simp [cut]
  | cons i keys ih =>
      by_cases haccepts : Accepts limit s i
      · rw [cut_cons_of_accepts haccepts, ih]
        simp
      · rw [cut_cons_of_not_accepts haccepts, List.flatMap_cons, ih]
        simp

theorem flatMap_cutAll (limit : K → K) (keys : List K) :
    (cutAll limit keys).flatMap Prod.snd = keys := by
  cases keys with
  | nil => rfl
  | cons first keys => exact flatMap_cut

theorem sublist_of_mem_cutAll {bin : K × List K} (hbin : bin ∈ cutAll limit keys) :
    bin.2.Sublist keys := by
  have hflat := flatMap_cutAll limit keys
  rw [List.flatMap_def] at hflat
  rw [← hflat]
  exact List.sublist_flatten_of_mem (List.mem_map_of_mem hbin)

/-- Over sorted keys the sweep opens its bins greedily.  `S` holds the keys seen
so far too: those below the open bin and those it has taken. -/
theorem greedyFrom_cut {S : Set K} (taken : List K) (hlimit : ∀ s, s < limit s)
    (hsorted : (s :: keys).Pairwise (· ≤ ·)) (hmem : ∀ k ∈ keys, k ∈ S)
    (hseen : ∀ k ∈ S, k ∈ keys ∨ k < s ∨ Accepts limit s k) :
    GreedyFrom limit S s ((cut limit s taken keys).map Prod.fst).tail := by
  induction keys generalizing s taken with
  | nil =>
      apply GreedyFrom.last
      rw [Set.eq_empty_iff_forall_notMem]
      rintro k ⟨hk, hlt, hnot⟩
      rcases hseen k hk with hk' | hk' | hk'
      · simp at hk'
      · exact absurd hk' hlt.not_gt
      · exact hnot hk'
  | cons i keys ih =>
      obtain ⟨hle, hsorted'⟩ := List.pairwise_cons.mp hsorted
      obtain ⟨hile, hsorted''⟩ := List.pairwise_cons.mp hsorted'
      have hsi : s ≤ i := hle i (by simp)
      have hmem' : ∀ k ∈ keys, k ∈ S := fun k hk => hmem k (List.mem_cons_of_mem i hk)
      by_cases haccepts : Accepts limit s i
      · rw [cut_cons_of_accepts haccepts]
        refine ih _ ?_ hmem' ?_
        · exact List.pairwise_cons.mpr
            ⟨fun k hk => hle k (List.mem_cons_of_mem i hk), hsorted''⟩
        · intro k hk
          rcases hseen k hk with hk' | hk'
          · rcases List.mem_cons.mp hk' with rfl | hk'
            · exact Or.inr (Or.inr haccepts)
            · exact Or.inl hk'
          · exact Or.inr hk'
      · have hlimiti : limit s ≤ i := limit_le_of_not_accepts hsi haccepts
        have hlt : s < i := lt_of_not_accepts hlimit hsi haccepts
        rw [cut_cons_of_not_accepts haccepts]
        obtain ⟨more, rest, hcut⟩ := exists_cut_eq_cons limit i [i] keys
        have hrest : GreedyFrom limit S i ((cut limit i [i] keys).map Prod.fst).tail := by
          refine ih _ hsorted' hmem' ?_
          intro k hk
          rcases hseen k hk with hk' | hk' | hk'
          · rcases List.mem_cons.mp hk' with rfl | hk'
            · exact Or.inr (Or.inr ⟨le_rfl, hlimit k⟩)
            · exact Or.inl hk'
          · exact Or.inr (Or.inl (hk'.trans hlt))
          · exact Or.inr (Or.inl (hk'.2.trans_le hlimiti))
        rw [hcut] at hrest ⊢
        refine GreedyFrom.next ⟨⟨hmem i (by simp), hlt, haccepts⟩, ?_⟩ hrest
        rintro k ⟨hk, hsk, hnot⟩
        rcases hseen k hk with hk' | hk' | hk'
        · rcases List.mem_cons.mp hk' with rfl | hk'
          · exact le_rfl
          · exact hile k hk'
        · exact absurd hk' hsk.not_gt
        · exact absurd hk' hnot

theorem filter_accepts_eq_taken {before later : List K} (hbefore : ∀ k ∈ before, k < s)
    (htaken : ∀ k ∈ taken, Accepts limit s k) (hlater : ∀ k ∈ later, limit s ≤ k) :
    (before ++ taken ++ later).filter (Accepts limit s ·) = taken := by
  have hnone : before.filter (Accepts limit s ·) = [] := by
    rw [List.filter_eq_nil_iff]
    intro k hk haccepts
    simp only [decide_eq_true_eq] at haccepts
    exact absurd (hbefore k hk) haccepts.1.not_gt
  have hall : taken.filter (Accepts limit s ·) = taken := by
    rw [List.filter_eq_self]
    simpa using htaken
  have hend : later.filter (Accepts limit s ·) = [] := by
    rw [List.filter_eq_nil_iff]
    intro k hk haccepts
    simp only [decide_eq_true_eq] at haccepts
    exact absurd haccepts.2 (not_lt.mpr (hlater k hk))
  rw [List.filter_append, List.filter_append, hnone, hall, hend]
  simp

/-- A bin holds exactly the keys it accepts.  `before` are the keys of the bins
already closed. -/
theorem cut_taken_eq_filter (before taken : List K) (hlimit : ∀ s, s < limit s)
    (hsorted : (s :: keys).Pairwise (· ≤ ·)) (hbefore : ∀ k ∈ before, k < s)
    (htaken : ∀ k ∈ taken, Accepts limit s k) :
    ∀ bin ∈ cut limit s taken keys,
      bin.2 = (before ++ taken ++ keys).filter (Accepts limit bin.1 ·) := by
  induction keys generalizing s taken before with
  | nil =>
      intro bin hbin
      simp only [cut, List.mem_singleton] at hbin
      subst hbin
      exact (filter_accepts_eq_taken hbefore htaken (by simp)).symm
  | cons i keys ih =>
      obtain ⟨hle, hsorted'⟩ := List.pairwise_cons.mp hsorted
      obtain ⟨hile, hsorted''⟩ := List.pairwise_cons.mp hsorted'
      have hsi : s ≤ i := hle i (by simp)
      by_cases haccepts : Accepts limit s i
      · have hopen : (s :: keys).Pairwise (· ≤ ·) := List.pairwise_cons.mpr
          ⟨fun k hk => hle k (List.mem_cons_of_mem i hk), hsorted''⟩
        have htaken' : ∀ k ∈ taken ++ [i], Accepts limit s k := by
          intro k hk
          rcases List.mem_append.mp hk with hk | hk
          · exact htaken k hk
          · rw [List.mem_singleton.mp hk]
            exact haccepts
        rw [cut_cons_of_accepts haccepts]
        intro bin hbin
        simpa using ih _ _ hopen hbefore htaken' bin hbin
      · have hlimiti : limit s ≤ i := limit_le_of_not_accepts hsi haccepts
        have hlt : s < i := lt_of_not_accepts hlimit hsi haccepts
        rw [cut_cons_of_not_accepts haccepts]
        intro bin hbin
        rcases List.mem_cons.mp hbin with rfl | hbin
        · refine (filter_accepts_eq_taken hbefore htaken ?_).symm
          intro k hk
          rcases List.mem_cons.mp hk with rfl | hk
          · exact hlimiti
          · exact hlimiti.trans (hile k hk)
        · have hbefore' : ∀ k ∈ before ++ taken, k < i := by
            intro k hk
            rcases List.mem_append.mp hk with hk | hk
            · exact (hbefore k hk).trans hlt
            · exact (htaken k hk).2.trans_le hlimiti
          have htaken' : ∀ k ∈ [i], Accepts limit i k := by
            intro k hk
            rw [List.mem_singleton.mp hk]
            exact ⟨le_rfl, hlimit i⟩
          simpa using ih _ _ hsorted' hbefore' htaken' bin hbin

end Sweep

/-! ## Renaming keys -/

section Renaming

variable {K' : Type*} [LinearOrder K'] {limit' : K' → K'} {f : K → K'}

/-- A renaming of the keys under which the same keys are taken renames the bins. -/
theorem cut_map (s : K) (taken : List K) {keys : List K}
    (h : ∀ t ∈ s :: keys, ∀ k ∈ keys, Accepts limit' (f t) (f k) ↔ Accepts limit t k) :
    cut limit' (f s) (taken.map f) (keys.map f) =
      (cut limit s taken keys).map fun bin => (f bin.1, bin.2.map f) := by
  induction keys generalizing s taken with
  | nil => rfl
  | cons i keys ih =>
      have hi := h s (by simp) i (by simp)
      have hrest : ∀ t ∈ s :: i :: keys, ∀ k ∈ keys,
          Accepts limit' (f t) (f k) ↔ Accepts limit t k :=
        fun t ht k hk => h t ht k (List.mem_cons_of_mem i hk)
      by_cases haccepts : Accepts limit s i
      · have hopen := ih s (taken ++ [i]) fun t ht k hk => by
          refine hrest t ?_ k hk
          rcases List.mem_cons.mp ht with rfl | ht
          · simp
          · simp [ht]
        rw [List.map_append] at hopen
        rw [List.map_cons, cut_cons_of_accepts (hi.mpr haccepts),
          cut_cons_of_accepts haccepts]
        exact hopen
      · have hnext := ih i [i] fun t ht k hk =>
          hrest t (List.mem_cons_of_mem s ht) k hk
        rw [List.map_cons, cut_cons_of_not_accepts (hi.not.mpr haccepts),
          cut_cons_of_not_accepts haccepts, List.map_cons]
        exact congrArg _ hnext

theorem cutAll_map {keys : List K}
    (h : ∀ t ∈ keys, ∀ k ∈ keys, Accepts limit' (f t) (f k) ↔ Accepts limit t k) :
    cutAll limit' (keys.map f) =
      (cutAll limit keys).map fun bin => (f bin.1, bin.2.map f) := by
  cases keys with
  | nil => rfl
  | cons first keys =>
      refine cut_map first [] fun t ht k hk => h t ?_ k hk
      rcases List.mem_cons.mp ht with rfl | ht
      · simp
      · exact ht

end Renaming

/-! ## A ceiling on the keys of a bin

Here a limit may lie at or below the start of its bin, so the first bin may stay
empty.  A ceiling `c` holds for every bin exactly if the sweep with the lower of
the two limits never meets a key between them. -/

section Ceiling

variable {c : K → K} {s : K} {taken keys : List K}

theorem start_mem_of_mem_tail_cut (limit : K → K) (s : K) (taken keys : List K) :
    ∀ bin ∈ (cut limit s taken keys).tail, bin.1 ∈ keys ∧ bin.1 ∈ bin.2 := by
  induction keys generalizing s taken with
  | nil => simp [cut]
  | cons i keys ih =>
      intro bin hbin
      by_cases haccepts : Accepts limit s i
      · rw [cut_cons_of_accepts haccepts] at hbin
        obtain ⟨hkeys, hself⟩ := ih s (taken ++ [i]) bin hbin
        exact ⟨List.mem_cons_of_mem i hkeys, hself⟩
      · rw [cut_cons_of_not_accepts haccepts, List.tail_cons] at hbin
        obtain ⟨more, rest, hcut⟩ := exists_cut_eq_cons limit i [i] keys
        have htail := ih i [i] bin
        rw [hcut] at hbin htail
        rcases List.mem_cons.mp hbin with rfl | hbin
        · exact ⟨by simp, by simp⟩
        · obtain ⟨hkeys, hself⟩ := htail hbin
          exact ⟨List.mem_cons_of_mem i hkeys, hself⟩

theorem mem_taken_of_mem_cut :
    ∀ bin ∈ cut limit s taken keys, ∀ k ∈ bin.2,
      k ∈ taken ∧ bin.1 = s ∨ k = bin.1 ∨ Accepts limit bin.1 k := by
  induction keys generalizing s taken with
  | nil =>
      intro bin hbin k hk
      rw [cut, List.mem_singleton] at hbin
      subst hbin
      exact Or.inl ⟨hk, rfl⟩
  | cons i keys ih =>
      intro bin hbin k hk
      by_cases haccepts : Accepts limit s i
      · rw [cut_cons_of_accepts haccepts] at hbin
        rcases ih bin hbin k hk with ⟨htaken, hs⟩ | hrest
        · rcases List.mem_append.mp htaken with htaken | hi
          · exact Or.inl ⟨htaken, hs⟩
          · rw [List.mem_singleton.mp hi, hs]
            exact Or.inr (Or.inr haccepts)
        · exact Or.inr hrest
      · rw [cut_cons_of_not_accepts haccepts] at hbin
        rcases List.mem_cons.mp hbin with rfl | hbin
        · exact Or.inl ⟨hk, rfl⟩
        · rcases ih bin hbin k hk with ⟨htaken, hs⟩ | hrest
          · exact Or.inr (Or.inl ((List.mem_singleton.mp htaken).trans hs.symm))
          · exact Or.inr hrest

theorem mem_cut_of_lt_limit (hsorted : (s :: keys).Pairwise (· ≤ ·))
    (hstrict : keys.Pairwise (· < ·)) :
    ∀ bin ∈ cut limit s taken keys, ∀ k ∈ keys, bin.1 < k → k < limit bin.1 →
      k ∈ bin.2 := by
  induction keys generalizing s taken with
  | nil => simp
  | cons i keys ih =>
      obtain ⟨hle, hsorted'⟩ := List.pairwise_cons.mp hsorted
      obtain ⟨hilt, hstrict'⟩ := List.pairwise_cons.mp hstrict
      intro bin hbin k hk hlt hlimit
      by_cases haccepts : Accepts limit s i
      · rw [cut_cons_of_accepts haccepts] at hbin
        rcases List.mem_cons.mp hk with rfl | hk
        · -- A bin opened after `k` starts above it, so this is the open one.
          obtain ⟨more, rest, hcut⟩ := exists_cut_eq_cons limit s (taken ++ [k]) keys
          have htail := start_mem_of_mem_tail_cut limit s (taken ++ [k]) keys bin
          rw [hcut] at hbin htail
          rcases List.mem_cons.mp hbin with rfl | hbin
          · simp
          · exact absurd hlt (hilt bin.1 (htail hbin).1).not_gt
        · have hopen : (s :: keys).Pairwise (· ≤ ·) := List.pairwise_cons.mpr
            ⟨fun k hk => hle k (List.mem_cons_of_mem i hk), hsorted'.of_cons⟩
          exact ih hopen hstrict' bin hbin k hk hlt hlimit
      · rw [cut_cons_of_not_accepts haccepts] at hbin
        have hik : i ≤ k := by
          rcases List.mem_cons.mp hk with rfl | hk
          · exact le_rfl
          · exact (hilt k hk).le
        rcases List.mem_cons.mp hbin with rfl | hbin
        · exact absurd ⟨hle i (by simp), hik.trans_lt hlimit⟩ haccepts
        · rcases List.mem_cons.mp hk with rfl | hk
          · obtain ⟨more, rest, hcut⟩ := exists_cut_eq_cons limit k [k] keys
            have htail := start_mem_of_mem_tail_cut limit k [k] keys bin
            rw [hcut] at hbin htail
            rcases List.mem_cons.mp hbin with rfl | hbin
            · simp
            · exact absurd hlt (hilt bin.1 (htail hbin).1).not_gt
          · exact ih hsorted' hstrict' bin hbin k hk hlt hlimit

def lower (limit c : K → K) (s : K) : K := min (c s) (limit s)

theorem accepts_lower_iff {k : K} :
    Accepts (lower limit c) s k ↔ Accepts limit s k ∧ k < c s := by
  simp only [Accepts, lower, lt_min_iff]
  tauto

theorem cut_lower_eq_of_below
    (hbelow : ∀ bin ∈ cut limit s taken keys, ∀ k ∈ bin.2, k < c bin.1) :
    cut (lower limit c) s taken keys = cut limit s taken keys := by
  induction keys generalizing s taken with
  | nil => rfl
  | cons i keys ih =>
      by_cases haccepts : Accepts limit s i
      · rw [cut_cons_of_accepts haccepts] at hbelow ⊢
        obtain ⟨more, rest, hcut⟩ := exists_cut_eq_cons limit s (taken ++ [i]) keys
        have hi : i < c s := by
          rw [hcut] at hbelow
          exact hbelow (s, taken ++ [i] ++ more) (by simp) i (by simp)
        rw [cut_cons_of_accepts (accepts_lower_iff.mpr ⟨haccepts, hi⟩), ih hbelow]
      · have hlower : ¬ Accepts (lower limit c) s i := fun h =>
          haccepts (accepts_lower_iff.mp h).1
        rw [cut_cons_of_not_accepts haccepts] at hbelow ⊢
        rw [cut_cons_of_not_accepts hlower,
          ih (fun bin hbin => hbelow bin (List.mem_cons_of_mem _ hbin))]

theorem cut_lower_eq_of_gap
    (hgap : ∀ bin ∈ cut (lower limit c) s taken keys, ∀ k ∈ keys,
      ¬ (c bin.1 ≤ k ∧ k < limit bin.1)) :
    cut (lower limit c) s taken keys = cut limit s taken keys := by
  induction keys generalizing s taken with
  | nil => rfl
  | cons i keys ih =>
      obtain ⟨more, rest, hcut⟩ := exists_cut_eq_cons (lower limit c) s taken (i :: keys)
      have hhead := hgap (s, taken ++ more) (by rw [hcut]; simp) i (by simp)
      by_cases haccepts : Accepts limit s i
      · have hi : i < c s := by
          by_contra hle
          exact hhead ⟨not_lt.mp hle, haccepts.2⟩
        have hlower := accepts_lower_iff.mpr ⟨haccepts, hi⟩
        rw [cut_cons_of_accepts hlower] at hgap ⊢
        rw [cut_cons_of_accepts haccepts]
        exact ih fun bin hbin k hk => hgap bin hbin k (List.mem_cons_of_mem i hk)
      · have hlower : ¬ Accepts (lower limit c) s i := fun h =>
          haccepts (accepts_lower_iff.mp h).1
        rw [cut_cons_of_not_accepts hlower] at hgap ⊢
        rw [cut_cons_of_not_accepts haccepts, ih fun bin hbin k hk =>
          hgap bin (List.mem_cons_of_mem _ hbin) k (List.mem_cons_of_mem i hk)]

/-- The key a bin is opened with is in a bin of that start, though not always in
the first one written. -/
theorem exists_start_mem_cut (first : K) :
    ∀ bin ∈ cut limit first [] (first :: keys),
      ∃ bin' ∈ cut limit first [] (first :: keys), bin'.1 = bin.1 ∧ bin.1 ∈ bin'.2 := by
  intro bin hbin
  have htail := start_mem_of_mem_tail_cut limit first [] (first :: keys) bin
  obtain ⟨more, rest, hcut⟩ := exists_cut_eq_cons limit first [first] keys
  by_cases haccepts : Accepts limit first first
  · rw [cut_cons_of_accepts haccepts, List.nil_append, hcut] at hbin htail ⊢
    rcases List.mem_cons.mp hbin with rfl | hbin
    · exact ⟨_, by simp, rfl, by simp⟩
    · exact ⟨bin, List.mem_cons_of_mem _ hbin, rfl, (htail hbin).2⟩
  · rw [cut_cons_of_not_accepts haccepts, hcut] at hbin htail ⊢
    rcases List.mem_cons.mp hbin with rfl | hbin
    · exact ⟨(first, [first] ++ more), by simp, rfl, by simp⟩
    · exact ⟨bin, List.mem_cons_of_mem _ hbin, rfl, (htail hbin).2⟩

/-- Every bin stays below its ceiling exactly if no bin of the lower sweep has a
key from the ceiling up to the limit. -/
theorem cutAll_below_iff (limit c : K → K) (hstrict : keys.Pairwise (· < ·)) :
    (∀ bin ∈ cutAll limit keys, ∀ k ∈ bin.2, k < c bin.1) ↔
      ∀ bin ∈ cutAll (lower limit c) keys,
        bin.1 < c bin.1 ∧ ∀ k ∈ keys, ¬ (c bin.1 ≤ k ∧ k < limit bin.1) := by
  cases keys with
  | nil => simp [cutAll]
  | cons first keys =>
      have hsorted := pairwise_cons_head (hstrict.imp le_of_lt)
      simp only [cutAll]
      constructor
      · intro hbelow
        rw [cut_lower_eq_of_below hbelow]
        intro bin hbin
        have hstart : bin.1 < c bin.1 := by
          obtain ⟨bin', hbin', hsame, hself⟩ := exists_start_mem_cut first bin hbin
          have hlt := hbelow bin' hbin' bin.1 hself
          rwa [hsame] at hlt
        refine ⟨hstart, ?_⟩
        rintro k hk ⟨hck, hlimit⟩
        have hmem := mem_cut_of_lt_limit hsorted hstrict bin hbin k hk
          (hstart.trans_le hck) hlimit
        exact absurd (hbelow bin hbin k hmem) (not_lt.mpr hck)
      · intro h
        have heq := cut_lower_eq_of_gap fun bin hbin k hk => (h bin hbin).2 k hk
        intro bin hbin k hk
        rw [← heq] at hbin
        rcases mem_taken_of_mem_cut bin hbin k hk with ⟨hnil, -⟩ | hself | haccepts
        · simp at hnil
        · rw [hself]
          exact (h bin hbin).1
        · exact (accepts_lower_iff.mp haccepts).2

end Ceiling

/-! ## Adding up over cells -/

section Cells

variable {ι ρ M : Type*} [AddCommMonoid M]

theorem sum_map_ite_eq_countP_nsmul (cells : List ι) (p : ι → Bool) (x : M) :
    (cells.map fun c => if p c then x else 0).sum = cells.countP p • x := by
  induction cells with
  | nil => simp
  | cons c cells ih =>
      rw [List.map_cons, List.sum_cons, ih, List.countP_cons]
      by_cases hc : p c
      · rw [if_pos hc, if_pos hc, succ_nsmul']
      · simp [hc]

theorem sum_map_filter (rows : List ρ) (p : ρ → Bool) (f : ρ → M) :
    ((rows.filter p).map f).sum = (rows.map fun r => if p r then f r else 0).sum := by
  induction rows with
  | nil => simp
  | cons r rows ih =>
      by_cases hr : p r <;> simp [hr, ih]

/-- Summing what each cell holds counts a row once for each cell it is in. -/
theorem sum_map_sum_filter (cells : List ι) (rows : List ρ) (R : ι → ρ → Bool)
    (f : ρ → M) :
    (cells.map fun c => ((rows.filter (R c)).map f).sum).sum =
      (rows.map fun r => cells.countP (R · r) • f r).sum := by
  induction rows with
  | nil => simp
  | cons r rows ih =>
      have hsplit : (fun c => (((r :: rows).filter (R c)).map f).sum) =
          fun c => (if R c r then f r else 0) + ((rows.filter (R c)).map f).sum := by
        funext c
        by_cases hc : R c r <;> simp [hc]
      rw [hsplit, List.sum_map_add, sum_map_ite_eq_countP_nsmul, ih, List.map_cons,
        List.sum_cons]

theorem countP_eq_one [DecidableEq ι] {cells : List ι} (hnodup : cells.Nodup)
    {p : ι → Bool} {c : ι} (hc : c ∈ cells) (hp : ∀ d ∈ cells, p d ↔ d = c) :
    cells.countP p = 1 := by
  have hcount : cells.countP p = cells.count c := by
    apply List.countP_congr
    intro d hd
    simp [hp d hd]
  rw [hcount, List.count_eq_one_of_mem hnodup hc]

end Cells

end SoftwareSwitches.Lib.GreedyCut
