import Mathlib.Algebra.BigOperators.Group.Finset.Basic
import Mathlib.Order.Interval.Finset.Nat

/-!
# Places taken and given back in order

Threads take places at the head of a window and give them back at its tail.  A thread holds
`n` places from `start` on, `claim t = some (start, n)`, or none at all.
-/

namespace SoftwareSwitches.Lib.Tickets

variable {τ : Type*}

/-- The places from `tail` to `head` are each held by exactly one thread. -/
structure Tiles (tail head : ℕ) (claim : τ → Option (ℕ × ℕ)) : Prop where
  tail_le : tail ≤ head
  within : ∀ t start n, claim t = some (start, n) → tail ≤ start ∧ 0 < n ∧ start + n ≤ head
  apart : ∀ t u start n start' n', claim t = some (start, n) → claim u = some (start', n') →
    t ≠ u → start + n ≤ start' ∨ start' + n' ≤ start
  cover : ∀ i, tail ≤ i → i < head →
    ∃ t start n, claim t = some (start, n) ∧ start ≤ i ∧ i < start + n

section

variable {tail head n : ℕ} {claim claim' : τ → Option (ℕ × ℕ)} {t : τ}

theorem tiles_of_none (h : ∀ t, claim t = none) : Tiles tail tail claim := by
  refine ⟨le_refl _, ?_, ?_, ?_⟩
  · intro t start n ht
    rw [h t] at ht
    cases ht
  · intro t u start n start' n' ht
    rw [h t] at ht
    cases ht
  · intro i hle hlt
    omega

theorem Tiles.congr (h : Tiles tail head claim) (hclaim : ∀ t, claim' t = claim t) :
    Tiles tail head claim' := by
  have heq : claim' = claim := funext hclaim
  rwa [heq]

theorem Tiles.reserve (h : Tiles tail head claim) (hn : 0 < n) (ht : claim t = none)
    (ht' : claim' t = some (head, n)) (hother : ∀ u ≠ t, claim' u = claim u) :
    Tiles tail (head + n) claim' := by
  have hold : ∀ u start m, claim' u = some (start, m) → u ≠ t →
      tail ≤ start ∧ 0 < m ∧ start + m ≤ head := by
    intro u start m hu hne
    rw [hother u hne] at hu
    exact h.within u start m hu
  have hnew : ∀ u start m, claim' u = some (start, m) → u = t → start = head ∧ m = n := by
    intro u start m hu heq
    rw [heq, ht'] at hu
    cases hu
    exact ⟨rfl, rfl⟩
  refine ⟨by have hle := h.tail_le; omega, ?_, ?_, ?_⟩
  · intro u start m hu
    by_cases hut : u = t
    · have hstart := hnew u start m hu hut
      have hle := h.tail_le
      omega
    · have hstart := hold u start m hu hut
      omega
  · intro u v start m start' m' hu hv hne
    by_cases hut : u = t
    · have hvt : v ≠ t := by
        intro heq
        exact hne (hut.trans heq.symm)
      have hstart := hnew u start m hu hut
      have hstart' := hold v start' m' hv hvt
      omega
    · by_cases hvt : v = t
      · have hstart := hold u start m hu hut
        have hstart' := hnew v start' m' hv hvt
        omega
      · rw [hother u hut] at hu
        rw [hother v hvt] at hv
        exact h.apart u v start m start' m' hu hv hne
  · intro i hle hlt
    by_cases hi : i < head
    · obtain ⟨u, start, m, hu, hi⟩ := h.cover i hle hi
      have hut : u ≠ t := by
        intro heq
        rw [heq, ht] at hu
        cases hu
      exact ⟨u, start, m, by rw [hother u hut, hu], hi⟩
    · exact ⟨t, head, n, ht', by omega, by omega⟩

theorem Tiles.release (h : Tiles tail head claim) (ht : claim t = some (tail, n))
    (ht' : claim' t = none) (hother : ∀ u ≠ t, claim' u = claim u) :
    Tiles (tail + n) head claim' := by
  have hown := h.within t tail n ht
  have hold : ∀ u start m, claim' u = some (start, m) → u ≠ t ∧ claim u = some (start, m) := by
    intro u start m hu
    have hut : u ≠ t := by
      intro heq
      rw [heq, ht'] at hu
      cases hu
    exact ⟨hut, by rwa [hother u hut] at hu⟩
  refine ⟨hown.2.2, ?_, ?_, ?_⟩
  · intro u start m hu
    obtain ⟨hut, hu⟩ := hold u start m hu
    have hstart := h.within u start m hu
    have hapart := h.apart u t start m tail n hu ht hut
    omega
  · intro u v start m start' m' hu hv hne
    exact h.apart u v start m start' m' (hold u start m hu).2 (hold v start' m' hv).2 hne
  · intro i hle hlt
    obtain ⟨u, start, m, hu, hi⟩ := h.cover i (by omega) hlt
    have hut : u ≠ t := by
      intro heq
      rw [heq, ht] at hu
      cases hu
      omega
    exact ⟨u, start, m, by rw [hother u hut, hu], hi⟩

theorem Tiles.first (h : Tiles tail head claim) (hlt : tail < head) :
    ∃ t n, claim t = some (tail, n) := by
  obtain ⟨t, start, n, ht, hle, hi⟩ := h.cover tail (le_refl _) hlt
  have hstart := h.within t start n ht
  have heq : start = tail := by omega
  exact ⟨t, n, by rw [ht, heq]⟩

def places : Option (ℕ × ℕ) → Finset ℕ
  | none => ∅
  | some (start, n) => Finset.Ico start (start + n)

theorem Tiles.biUnion_places [Fintype τ] (h : Tiles tail head claim) :
    Finset.univ.biUnion (fun t => places (claim t)) = Finset.Ico tail head := by
  ext i
  rw [Finset.mem_biUnion, Finset.mem_Ico]
  constructor
  · intro ⟨t, _, hi⟩
    cases hclaim : claim t with
    | none =>
        rw [hclaim] at hi
        cases hi
    | some held =>
        have hwithin := h.within t held.1 held.2 hclaim
        rw [hclaim] at hi
        have hi := Finset.mem_Ico.mp hi
        omega
  · intro hi
    obtain ⟨t, start, n, hclaim, hmem⟩ := h.cover i hi.1 hi.2
    refine ⟨t, Finset.mem_univ t, ?_⟩
    rw [hclaim]
    exact Finset.mem_Ico.mpr hmem

theorem Tiles.disjoint_places (h : Tiles tail head claim) {t u : τ} (hne : t ≠ u) :
    Disjoint (places (claim t)) (places (claim u)) := by
  rw [Finset.disjoint_left]
  intro i hi hi'
  cases ht : claim t with
  | none =>
      rw [ht] at hi
      cases hi
  | some held =>
      cases hu : claim u with
      | none =>
          rw [hu] at hi'
          cases hi'
      | some held' =>
          have hapart := h.apart t u held.1 held.2 held'.1 held'.2 ht hu hne
          rw [ht] at hi
          rw [hu] at hi'
          have hi := Finset.mem_Ico.mp hi
          have hi' := Finset.mem_Ico.mp hi'
          omega

theorem Tiles.sum_card [Fintype τ] (h : Tiles tail head claim) :
    ∑ t, (places (claim t)).card = head - tail := by
  rw [← Finset.card_biUnion fun t _ u _ hne => h.disjoint_places hne, h.biUnion_places,
    Nat.card_Ico]

end

end SoftwareSwitches.Lib.Tickets
