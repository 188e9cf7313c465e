import Mathlib.Data.List.Chain
import Mathlib.Data.List.Count
import Mathlib.Tactic.SplitIfs

/-!
# A cursor over a schedule

A schedule has `n` entries.  A cursor serves one request after another, each with
the entry it points at; a signal that comes with a request moves it one entry on
before the request is served, and past the last entry nothing is served any more.
-/

namespace SoftwareSwitches.Lib.Schedule

/-- The entries served from `entry` on, one for each request up to the end. -/
def served (n : ℕ) : ℕ → List Bool → List ℕ
  | _, [] => []
  | entry, signal :: signals =>
    if entry + signal.toNat < n then
      (entry + signal.toNat) :: served n (entry + signal.toNat) signals
    else []

variable {n entry : ℕ} {signals : List Bool}

theorem count_true_cons (signal : Bool) (signals : List Bool) :
    (signal :: signals).count true = signal.toNat + signals.count true := by
  cases signal with
  | false => simp
  | true => simp [Nat.add_comm]

theorem getElem_served {i : ℕ} (h : i < (served n entry signals).length) :
    (served n entry signals)[i] = entry + (signals.take (i + 1)).count true := by
  induction signals generalizing entry i with
  | nil => simp [served] at h
  | cons signal signals ih =>
      unfold served at h ⊢
      split_ifs at h ⊢ with hlt
      · cases i with
        | zero => simp [count_true_cons]
        | succ i =>
            have hi := ih (by simpa using h)
            rw [List.getElem_cons_succ, hi, List.take_succ_cons, count_true_cons]
            omega
      · simp at h

theorem lt_of_mem_served {x : ℕ} (h : x ∈ served n entry signals) : x < n := by
  induction signals generalizing entry with
  | nil => simp [served] at h
  | cons signal signals ih =>
      unfold served at h
      split_ifs at h with hlt
      · rcases List.mem_cons.mp h with rfl | h
        · exact hlt
        · exact ih h
      · simp at h

theorem length_served_le (n entry : ℕ) (signals : List Bool) :
    (served n entry signals).length ≤ signals.length := by
  induction signals generalizing entry with
  | nil => simp [served]
  | cons signal signals ih =>
      unfold served
      split_ifs with hlt
      · simpa using ih _
      · simp

theorem isChain_served (n entry : ℕ) (signals : List Bool) :
    (served n entry signals).IsChain fun a b => b = a ∨ b = a + 1 := by
  induction signals generalizing entry with
  | nil => simp [served]
  | cons signal signals ih =>
      unfold served
      split_ifs with hlt
      · rw [List.isChain_cons]
        refine ⟨?_, ih _⟩
        intro next hnext
        cases signals with
        | nil => simp [served] at hnext
        | cons signal' signals =>
            unfold served at hnext
            split_ifs at hnext with hlt'
            · have hnext' : entry + signal.toNat + signal'.toNat = next := by
                simpa using hnext
              cases signal' with
              | false => exact Or.inl hnext'.symm
              | true => exact Or.inr hnext'.symm
            · simp at hnext
      · simp

theorem lt_length_served_iff (n entry : ℕ) (signals : List Bool) (i : ℕ) :
    i < (served n entry signals).length ↔
      i < signals.length ∧ entry + (signals.take (i + 1)).count true < n := by
  induction signals generalizing entry i with
  | nil => simp [served]
  | cons signal signals ih =>
      unfold served
      rw [List.take_succ_cons, count_true_cons]
      split_ifs with hlt
      · cases i with
        | zero => simp [hlt]
        | succ i =>
            rw [List.length_cons, List.length_cons, Nat.succ_lt_succ_iff,
              Nat.succ_lt_succ_iff, ih, Nat.add_assoc]
      · simp
        omega

theorem length_served_of_lt (h : entry + signals.count true < n) :
    (served n entry signals).length = signals.length := by
  apply le_antisymm (length_served_le n entry signals)
  by_contra hshort
  have hnext : ¬ (served n entry signals).length <
      (served n entry signals).length := lt_irrefl _
  rw [lt_length_served_iff] at hnext
  have hcount := (List.take_sublist ((served n entry signals).length + 1)
    signals).count_le true
  omega

/-- The signal that leaves the last entry comes with the first request not served. -/
theorem exists_last_signal (hentry : entry < n) (h : n ≤ entry + signals.count true) :
    ∃ k, signals[k]? = some true ∧ entry + (signals.take (k + 1)).count true = n ∧
      (served n entry signals).length = k := by
  induction signals generalizing entry with
  | nil =>
      simp at h
      omega
  | cons signal signals ih =>
      rw [count_true_cons] at h
      by_cases hlt : entry + signal.toNat < n
      · obtain ⟨k, hk, hcount, hlength⟩ := ih hlt (by omega)
        refine ⟨k + 1, by simpa using hk, ?_, ?_⟩
        · rw [List.take_succ_cons, count_true_cons]
          omega
        · rw [served, if_pos hlt, List.length_cons, hlength]
      · cases signal with
        | false => exact absurd hentry hlt
        | true =>
            refine ⟨0, rfl, ?_, ?_⟩
            · simp at hlt ⊢
              omega
            · rw [served, if_neg hlt, List.length_nil]

end SoftwareSwitches.Lib.Schedule
