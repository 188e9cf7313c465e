import SoftwareSwitches.Lib.LinkedList
import Mathlib.Data.List.Sublists

/-!
# Searching a skip list

The levels of a skip list are linked lists with a common head, each a sublist of the
one below.  A search goes down the levels and on each one as far as a test allows;
where the test holds of every cell before one it holds of, the search ends on each
level behind the last cell that passes, however the cells were put on the levels.
-/

namespace SoftwareSwitches.Lib.SkipList

open LinkedList

variable {N T : Type*} (node : T → N)

/-- The node reached after going down `k` levels from the top one. -/
def search (next : ℕ → N → Option T) (go : T → Bool) (fuel : ℕ) (head : N) (depth : ℕ) :
    ℕ → N
  | 0 => head
  | k + 1 =>
    advance node (next (depth - (k + 1))) go fuel (search next go fuel head depth k)

/-- A cell that passes has only cells that pass before it. -/
def Initial (go : T → Bool) (l : List T) : Prop :=
  l.Pairwise (fun a b => go b = true → go a = true)

variable {node} {go : T → Bool} {l a b : List T} {t : T}

theorem Initial.filter_eq (h : Initial go l) : l.filter go = l.takeWhile go := by
  induction l with
  | nil => rfl
  | cons t l ih =>
      obtain ⟨hfirst, htail⟩ := List.pairwise_cons.mp h
      by_cases hgo : go t = true
      · rw [List.filter_cons_of_pos hgo, List.takeWhile_cons_of_pos hgo, ih htail]
      · rw [List.filter_cons_of_neg hgo, List.takeWhile_cons_of_neg hgo, List.filter_eq_nil_iff]
        intro u hu hgo'
        exact hgo (hfirst u hu hgo')

theorem Initial.filter_not_eq (h : Initial go l) :
    l.filter (fun t => !go t) = l.dropWhile go := by
  induction l with
  | nil => rfl
  | cons t l ih =>
      obtain ⟨hfirst, htail⟩ := List.pairwise_cons.mp h
      by_cases hgo : go t = true
      · rw [List.filter_cons_of_neg (by simp [hgo]), List.dropWhile_cons_of_pos hgo, ih htail]
      · rw [List.dropWhile_cons_of_neg hgo, List.filter_eq_self]
        intro u hu
        rcases List.mem_cons.mp hu with rfl | hu
        · simpa using hgo
        · have hnot : ¬ go u = true := fun hgo' => hgo (hfirst u hu hgo')
          simpa using hnot

theorem Initial.takeWhile_append (h : Initial go (a ++ t :: b)) (ht : go t = true) :
    (a ++ t :: b).takeWhile go = a ++ t :: b.takeWhile go := by
  rw [← h.filter_eq]
  obtain ⟨-, hright, hcross⟩ := List.pairwise_append.mp h
  have hall : ∀ u ∈ a, go u = true := fun u hu => hcross u hu t (by simp) ht
  rw [List.filter_append, List.filter_eq_self.mpr hall, List.filter_cons_of_pos ht,
    Initial.filter_eq (List.pairwise_cons.mp hright).2]

theorem nested_of_le {L : ℕ → List T} (hnested : ∀ i, (L (i + 1)).Sublist (L i)) {i j : ℕ}
    (hij : i ≤ j) : (L j).Sublist (L i) := by
  induction j, hij using Nat.le_induction with
  | base => exact List.Sublist.refl _
  | succ j hij ih => exact (hnested j).trans ih

theorem lt_countP_range_iff {p : ℕ → Bool} (hp : ∀ i, p (i + 1) = true → p i = true) (i d : ℕ) :
    i < (List.range d).countP p ↔ i < d ∧ p i = true := by
  have hdown : ∀ j k, j ≤ k → p k = true → p j = true := by
    intro j k hjk hk
    induction k, hjk using Nat.le_induction with
    | base => exact hk
    | succ k hjk ih => exact ih (hp k hk)
  induction d with
  | zero => simp
  | succ d ih =>
      rw [List.range_succ, List.countP_append]
      by_cases hd : p d = true
      · have hall : (List.range d).countP p = d := by
          rw [List.countP_eq_length.mpr, List.length_range]
          intro j hj
          exact hdown j d (by simpa using (List.mem_range.mp hj).le) hd
        simp only [hall, List.countP_singleton, hd, if_true]
        constructor
        · intro hi
          exact ⟨hi, hdown i d (by omega) hd⟩
        · exact fun hi => hi.1
      · have hlast : [d].countP p = 0 := by simp [hd]
        rw [hlast, Nat.add_zero]
        apply ih.trans
        constructor
        · exact fun hi => ⟨by omega, hi.2⟩
        · rintro ⟨hi, hpi⟩
          have hne : i ≠ d := fun heq => hd (heq ▸ hpi)
          exact ⟨by omega, hpi⟩

/-- Each level's search ends behind the last cell that passes there. -/
theorem search_eq {next : ℕ → N → Option T} {fuel depth : ℕ} {head : N} {L : ℕ → List T}
    (hlinked : ∀ i < depth, Linked node (next i) head (L i))
    (hnested : ∀ i, (L (i + 1)).Sublist (L i)) (hinitial : ∀ i, Initial go (L i))
    (htop : L depth = []) (hfuel : ∀ i, (L i).length ≤ fuel) {k : ℕ} (hk : k ≤ depth) :
    search node next go fuel head depth k =
      lastNode node head ((L (depth - k)).takeWhile go) := by
  induction k with
  | zero => simp [search, htop]
  | succ k ih =>
      have hlevel : depth - k = depth - (k + 1) + 1 := by omega
      have hlink := hlinked (depth - (k + 1)) (by omega)
      have hsub := hnested (depth - (k + 1))
      unfold search
      rw [ih (by omega), hlevel]
      set low := L (depth - (k + 1)) with hlow
      set high := L (depth - (k + 1) + 1) with hhigh
      have hbound : ∀ l : List T, l.length ≤ low.length → l.length ≤ fuel := by
        intro l hl
        exact hl.trans (hfuel _)
      rcases List.eq_nil_or_concat (high.takeWhile go) with hnone | ⟨before, t, hlast⟩
      · rw [hnone, lastNode_nil]
        exact hlink.advance_eq (hbound _ (List.takeWhile_sublist go).length_le)
      · -- the search enters this level at cell `t` of it, which passes
        rw [List.concat_eq_append] at hlast
        have hmem : t ∈ high.takeWhile go := by simp [hlast]
        rw [← (hinitial _).filter_eq, List.mem_filter] at hmem
        obtain ⟨hthigh, hgo⟩ := hmem
        have htlow : t ∈ low := hsub.subset hthigh
        obtain ⟨x, y, hsplit⟩ := List.append_of_mem htlow
        have hx := hinitial (depth - (k + 1))
        rw [← hlow, hsplit] at hx
        rw [hsplit] at hlink
        rw [hlast, lastNode_append, lastNode_cons, lastNode_nil, hsplit,
          Initial.takeWhile_append hx hgo, lastNode_append, lastNode_cons]
        have hrest : Linked node (next (depth - (k + 1))) (node t) y := by
          have hright := Linked.right (a := x ++ [t]) (b := y) (by simpa using hlink)
          rwa [lastNode_append, lastNode_cons, lastNode_nil] at hright
        apply hrest.advance_eq
        apply hbound
        calc
          (y.takeWhile go).length ≤ y.length := (List.takeWhile_sublist go).length_le
          _ ≤ low.length := by
            rw [hsplit, List.length_append, List.length_cons]
            omega

end SoftwareSwitches.Lib.SkipList
