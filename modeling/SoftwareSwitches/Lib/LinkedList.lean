import Mathlib.Data.List.Basic
import Mathlib.Data.List.Nodup
import Mathlib.Logic.Function.Basic

/-!
# Singly linked lists in a memory

A memory gives every node the cell its pointer leads to, or nothing.  The nodes are
the cells, through `node`, and whatever else holds a pointer, such as the head of a
list.  `Linked next n l` says that the pointers from node `n` run through the cells
`l` and end there.
-/

namespace SoftwareSwitches.Lib.LinkedList

variable {N T : Type*} (node : T → N)

def Linked (next : N → Option T) : N → List T → Prop
  | n, [] => next n = none
  | n, t :: l => next n = some t ∧ Linked next (node t) l

def lastNode (n : N) (l : List T) : N :=
  (l.getLast?.map node).getD n

def advance (next : N → Option T) (go : T → Bool) : ℕ → N → N
  | 0, n => n
  | fuel + 1, n =>
    match next n with
    | none => n
    | some t => if go t then advance next go fuel (node t) else n

def insertAfter [DecidableEq N] (next : N → Option T) (p : N) (t : T) : N → Option T :=
  Function.update (Function.update next (node t) (next p)) p (some t)

def removeAfter [DecidableEq N] (next : N → Option T) (p : N) (t : T) : N → Option T :=
  Function.update next p (next (node t))

/-- End the list at `p` and let `n` point to what followed. -/
def cutAfter [DecidableEq N] (next : N → Option T) (n p : N) : N → Option T :=
  Function.update (Function.update next n (next p)) p none

variable {node} {next next' : N → Option T} {n p : N} {l a b : List T} {t : T}

@[simp] theorem lastNode_nil (n : N) : lastNode node n [] = n := rfl

@[simp] theorem lastNode_cons (n : N) (t : T) (l : List T) :
    lastNode node n (t :: l) = lastNode node (node t) l := by
  cases l with
  | nil => rfl
  | cons u l => simp [lastNode, List.getLast?_cons]

theorem lastNode_append (n : N) (a b : List T) :
    lastNode node n (a ++ b) = lastNode node (lastNode node n a) b := by
  induction a generalizing n with
  | nil => rfl
  | cons t a ih =>
      rw [List.cons_append, lastNode_cons, lastNode_cons]
      exact ih (node t)

theorem lastNode_mem (n : N) (l : List T) : lastNode node n l ∈ n :: l.map node := by
  induction l generalizing n with
  | nil => simp
  | cons t l ih =>
      rw [lastNode_cons, List.map_cons]
      exact List.mem_cons_of_mem _ (ih (node t))

theorem ne_lastNode_cons (h : n ∉ ((t :: a) ++ b).map node) : n ≠ lastNode node n (t :: a) := by
  rw [lastNode_cons]
  intro heq
  apply h
  rw [heq, List.map_append]
  exact List.mem_append_left _ (lastNode_mem (node t) a)

/-! ## Following the pointers -/

theorem Linked.congr (h : Linked node next n l)
    (heq : ∀ m ∈ n :: l.map node, next' m = next m) : Linked node next' n l := by
  induction l generalizing n with
  | nil =>
      show next' n = none
      rw [heq n (by simp)]
      exact h
  | cons t l ih =>
      refine ⟨?_, ih h.2 ?_⟩
      · rw [heq n (by simp)]
        exact h.1
      · intro m hm
        exact heq m (List.mem_cons_of_mem _ hm)

theorem Linked.copy (h : Linked node next p l) (hcopy : next' n = next p)
    (heq : ∀ m ∈ l.map node, next' m = next m) : Linked node next' n l := by
  cases l with
  | nil =>
      show next' n = none
      rw [hcopy]
      exact h
  | cons t l => exact ⟨by rw [hcopy]; exact h.1, h.2.congr heq⟩

theorem Linked.right (h : Linked node next n (a ++ b)) :
    Linked node next (lastNode node n a) b := by
  induction a generalizing n with
  | nil => exact h
  | cons t a ih =>
      rw [lastNode_cons]
      exact ih h.2

theorem Linked.next_eq_head? (h : Linked node next n l) : next n = l.head? := by
  cases l with
  | nil => exact h
  | cons t l => exact h.1

theorem Linked.next_lastNode (h : Linked node next n (a ++ b)) :
    next (lastNode node n a) = b.head? :=
  h.right.next_eq_head?

theorem Linked.unique {l' : List T} (h : Linked node next n l) (h' : Linked node next n l') :
    l = l' := by
  induction l generalizing n l' with
  | nil =>
      cases l' with
      | nil => rfl
      | cons t l' => exact absurd (h.symm.trans h'.1) (by simp)
  | cons t l ih =>
      cases l' with
      | nil => exact absurd (h.1.symm.trans h') (by simp)
      | cons t' l' =>
          have heq : t = t' := Option.some.inj (h.1.symm.trans h'.1)
          subst heq
          rw [ih h.2 h'.2]

theorem Linked.advance_eq {go : T → Bool} (h : Linked node next n l) {fuel : ℕ}
    (hfuel : (l.takeWhile go).length ≤ fuel) :
    advance node next go fuel n = lastNode node n (l.takeWhile go) := by
  induction l generalizing n fuel with
  | nil =>
      have hend : next n = none := h
      cases fuel with
      | zero => rfl
      | succ fuel => simp [advance, hend]
  | cons t l ih =>
      have hnext : next n = some t := h.1
      by_cases hgo : go t = true
      · rw [List.takeWhile_cons_of_pos hgo] at hfuel ⊢
        cases fuel with
        | zero => simp at hfuel
        | succ fuel =>
            simp only [advance, hnext, hgo, if_true]
            rw [lastNode_cons]
            exact ih h.2 (by simpa using hfuel)
      · rw [List.takeWhile_cons_of_neg hgo]
        cases fuel with
        | zero => rfl
        | succ fuel => simp [advance, hnext, hgo]

/-! ## Changing the pointers -/

section Updates

variable [DecidableEq N]

theorem Linked.insertAfter (h : Linked node next n (a ++ b))
    (hnodup : (n :: (a ++ b).map node).Nodup) (ht : node t ∉ n :: (a ++ b).map node) :
    Linked node (insertAfter node next (lastNode node n a) t) n (a ++ t :: b) := by
  induction a generalizing n with
  | nil =>
      have hnt : node t ≠ n := fun heq => ht (by simp [heq])
      refine ⟨by simp [LinkedList.insertAfter], h.copy ?_ ?_⟩
      · simp [LinkedList.insertAfter, hnt]
      · intro m hm
        have hmn : m ≠ n := fun heq => (List.nodup_cons.mp hnodup).1 (heq ▸ hm)
        have hmt : m ≠ node t := fun heq => ht (List.mem_cons_of_mem _ (heq ▸ hm))
        simp [LinkedList.insertAfter, hmn, hmt]
  | cons u a ih =>
      obtain ⟨hnotMem, htail⟩ := List.nodup_cons.mp hnodup
      have hne := ne_lastNode_cons hnotMem
      have hnt : n ≠ node t := fun heq => ht (by simp [heq])
      refine ⟨?_, ?_⟩
      · simp only [LinkedList.insertAfter, Function.update_of_ne hne, Function.update_of_ne hnt]
        exact h.1
      · rw [lastNode_cons]
        exact ih h.2 htail (fun hmem => ht (List.mem_cons_of_mem _ hmem))

theorem Linked.removeAfter (h : Linked node next n (a ++ t :: b))
    (hnodup : (n :: (a ++ t :: b).map node).Nodup) :
    Linked node (removeAfter node next (lastNode node n a) t) n (a ++ b) := by
  induction a generalizing n with
  | nil =>
      apply h.2.copy
      · simp [LinkedList.removeAfter]
      · intro m hm
        have hmn : m ≠ n := by
          intro heq
          apply (List.nodup_cons.mp hnodup).1
          rw [← heq]
          exact List.mem_cons_of_mem _ hm
        simp [LinkedList.removeAfter, hmn]
  | cons u a ih =>
      obtain ⟨hnotMem, htail⟩ := List.nodup_cons.mp hnodup
      have hne := ne_lastNode_cons hnotMem
      refine ⟨?_, ?_⟩
      · simp only [LinkedList.removeAfter, Function.update_of_ne hne]
        exact h.1
      · rw [lastNode_cons]
        exact ih h.2 htail

theorem Linked.left (h : Linked node next n (a ++ b))
    (hnodup : (n :: (a ++ b).map node).Nodup) :
    Linked node (Function.update next (lastNode node n a) none) n a := by
  induction a generalizing n with
  | nil =>
      show Function.update next n none n = none
      simp
  | cons u a ih =>
      obtain ⟨hnotMem, htail⟩ := List.nodup_cons.mp hnodup
      have hne := ne_lastNode_cons hnotMem
      refine ⟨?_, ?_⟩
      · rw [Function.update_of_ne hne]
        exact h.1
      · rw [lastNode_cons]
        exact ih h.2 htail

/-- Cutting a list leaves its second part at the old head and its first part behind its
first cell. -/
theorem Linked.cutAfter (h : Linked node next n (t :: a ++ b))
    (hnodup : (n :: (t :: a ++ b).map node).Nodup) :
    Linked node (cutAfter next n (lastNode node n (t :: a))) n b ∧
      Linked node (cutAfter next n (lastNode node n (t :: a))) (node t) a := by
  obtain ⟨hnotMem, htail⟩ := List.nodup_cons.mp hnodup
  have hne := ne_lastNode_cons hnotMem
  constructor
  · apply h.right.copy
    · rw [LinkedList.cutAfter, Function.update_of_ne hne, Function.update_self]
    · intro m hm
      have hmn : m ≠ n := by
        intro heq
        apply hnotMem
        rw [← heq, List.map_append]
        exact List.mem_append_right _ hm
      have hmp : m ≠ lastNode node n (t :: a) := by
        intro heq
        rw [List.map_append, List.nodup_append] at htail
        refine htail.2.2 m ?_ m hm rfl
        rw [heq, lastNode_cons]
        exact lastNode_mem (node t) a
      rw [LinkedList.cutAfter, Function.update_of_ne hmp, Function.update_of_ne hmn]
  · have hleft := Linked.left (n := node t) h.2 htail
    apply hleft.congr
    intro m hm
    have hmn : m ≠ n := by
      intro heq
      apply hnotMem
      rw [← heq, List.map_append]
      exact List.mem_append_left _ hm
    rw [lastNode_cons, LinkedList.cutAfter]
    by_cases hmp : m = lastNode node (node t) a
    · simp [hmp]
    · simp [hmp, hmn]

end Updates

end SoftwareSwitches.Lib.LinkedList
