import Mathlib.Data.Int.CardIntervalMod
import Mathlib.Data.List.Count
import Mathlib.Data.List.Nodup
import Mathlib.Tactic.SplitIfs

/-!
# Going round an increasing list

The element after `i` in an increasing list of numbers, and the first one again
behind the last: a round-robin walk.  Whoever walks this way meets every
element equally often, up to one.
-/

namespace SoftwareSwitches.Lib.CyclicOrder

def firstAfter (l : List ℕ) (i : ℕ) : Option ℕ :=
  l.find? (i < ·)

/-- The first element of `l` after `i`, or the head of `l` behind the last one. -/
def cyclicNext (l : List ℕ) (i : ℕ) : Option ℕ :=
  (firstAfter l i).or l.head?

def visits (l : List ℕ) : ℕ → ℕ → List ℕ
  | 0, _ => []
  | k + 1, i =>
    match cyclicNext l i with
    | none => []
    | some j => j :: visits l k j

variable {l : List ℕ}

theorem firstAfter_eq_getElem? (h : l.Pairwise (· < ·)) (i : ℕ) :
    firstAfter l i = l[l.countP (· ≤ i)]? := by
  unfold firstAfter
  induction l with
  | nil => rfl
  | cons a l ih =>
      have htail := List.pairwise_cons.mp h
      by_cases hia : i < a
      · have hnone : l.countP (· ≤ i) = 0 := by
          rw [List.countP_eq_zero]
          intro b hb
          have hab := htail.1 b hb
          simp
          omega
        simp [hia, hnone]
      · have hle : a ≤ i := by omega
        rw [List.find?_cons_of_neg (by simpa using hle), ih htail.2]
        simp [hle]

theorem countP_le_getElem (h : l.Pairwise (· < ·)) {t : ℕ} (ht : t < l.length) :
    l.countP (· ≤ l[t]) = t + 1 := by
  induction l generalizing t with
  | nil => simp at ht
  | cons a l ih =>
      have htail := List.pairwise_cons.mp h
      cases t with
      | zero =>
          have hnone : l.countP (· ≤ a) = 0 := by
            rw [List.countP_eq_zero]
            intro b hb
            have hab := htail.1 b hb
            simp
            omega
          simp [hnone]
      | succ t =>
          have ht' : t < l.length := by simpa using ht
          have ha : a ≤ l[t] := (htail.1 _ (List.getElem_mem ht')).le
          simp [ha, ih htail.2 ht']

theorem cyclicNext_eq_getElem? (h : l.Pairwise (· < ·)) (i : ℕ) :
    cyclicNext l i = l[l.countP (· ≤ i) % l.length]? := by
  unfold cyclicNext
  rw [firstAfter_eq_getElem? h]
  have hle : l.countP (· ≤ i) ≤ l.length := List.countP_le_length
  by_cases hlt : l.countP (· ≤ i) < l.length
  · rw [Nat.mod_eq_of_lt hlt, List.getElem?_eq_getElem hlt]
    rfl
  · have heq : l.countP (· ≤ i) = l.length := by omega
    rw [heq, Nat.mod_self]
    simp [List.head?_eq_getElem?]

theorem visits_eq_map (h : l.Pairwise (· < ·)) (hl : 0 < l.length) (k i : ℕ) :
    visits l k i = (List.range k).map
      (fun j => l.getD ((l.countP (· ≤ i) + j) % l.length) 0) := by
  induction k generalizing i with
  | zero => rfl
  | succ k ih =>
      have hlt : l.countP (· ≤ i) % l.length < l.length := Nat.mod_lt _ hl
      have hnext : cyclicNext l i = some l[l.countP (· ≤ i) % l.length] := by
        rw [cyclicNext_eq_getElem? h, List.getElem?_eq_getElem hlt]
      rw [List.range_succ_eq_map, List.map_cons, List.map_map]
      unfold visits
      rw [hnext]
      simp only
      rw [ih, countP_le_getElem h hlt]
      congr 1
      · simp [hlt]
      · apply List.map_congr_left
        intro j hj
        have hindex : (l.countP (· ≤ i) % l.length + 1 + j) % l.length =
            (l.countP (· ≤ i) + j.succ) % l.length := by
          rw [Nat.add_assoc, Nat.mod_add_mod]
          congr 1
          omega
        simp only [Function.comp_apply]
        rw [hindex]

/-- An element is met every `l.length` steps, from its own distance on. -/
theorem count_visits (h : l.Pairwise (· < ·)) {t : ℕ} (ht : t < l.length) (k i : ℕ) :
    ∃ v, (visits l k i).count l[t] =
      k / l.length + if v % l.length < k % l.length then 1 else 0 := by
  have hl : 0 < l.length := by omega
  have hnodup : l.Nodup := h.imp Nat.ne_of_lt
  set c := l.countP (· ≤ i) with hc
  refine ⟨t + l.length * c - c, ?_⟩
  rw [← Nat.count_modEq_card k hl, visits_eq_map h hl, List.count_eq_countP, List.countP_map,
    ← hc, Nat.count]
  have hshift : c ≤ l.length * c := Nat.le_mul_of_pos_left c hl
  have hback : c + (t + l.length * c - c) = t + l.length * c := by omega
  apply List.countP_congr
  intro j hj
  have hlt : (c + j) % l.length < l.length := Nat.mod_lt _ hl
  have hget : l.getD ((c + j) % l.length) 0 = l[(c + j) % l.length] := by simp [hlt]
  simp only [Function.comp_apply, beq_iff_eq, decide_eq_true_eq, hget, hnodup.getElem_inj_iff]
  constructor
  · intro hj
    apply Nat.ModEq.add_left_cancel' c
    rw [hback]
    show (c + j) % l.length = (t + l.length * c) % l.length
    rw [hj, Nat.add_mul_mod_self_left, Nat.mod_eq_of_lt ht]
  · intro hj
    have hsum : (c + j) % l.length = (c + (t + l.length * c - c)) % l.length :=
      hj.add_left c
    rw [hsum, hback, Nat.add_mul_mod_self_left, Nat.mod_eq_of_lt ht]

theorem count_visits_le (h : l.Pairwise (· < ·)) {a b : ℕ} (ha : a ∈ l) (hb : b ∈ l)
    (k i : ℕ) : (visits l k i).count a ≤ (visits l k i).count b + 1 := by
  obtain ⟨s, hs, rfl⟩ := List.getElem_of_mem ha
  obtain ⟨t, ht, rfl⟩ := List.getElem_of_mem hb
  obtain ⟨v, hv⟩ := count_visits h hs k i
  obtain ⟨w, hw⟩ := count_visits h ht k i
  rw [hv, hw]
  split_ifs <;> omega

theorem count_visits_length (h : l.Pairwise (· < ·)) {a : ℕ} (ha : a ∈ l) (m i : ℕ) :
    (visits l (m * l.length) i).count a = m := by
  obtain ⟨t, ht, rfl⟩ := List.getElem_of_mem ha
  obtain ⟨v, hv⟩ := count_visits h ht (m * l.length) i
  have hl : 0 < l.length := by omega
  rw [hv, Nat.mul_mod_left, Nat.mul_div_cancel _ hl]
  simp

end SoftwareSwitches.Lib.CyclicOrder
