import Mathlib.Data.List.Basic
import Mathlib.Data.List.Nodup
import Mathlib.Logic.Function.Basic

/-!
# Paths of FIFO queues

A family of queues `q : κ → List α` holds items with the head of each list
leaving first.  A path lists the queues an item passes, *last queue first*, so
that concatenating them in path order gives the items in the order in which
they leave the path.  Moving the head of one queue to the tail of the next one
on the path does not change that concatenation; dropping an item removes it;
everything that happens off the path is invisible to it.

Items may be rewritten on the way, so the concatenation is taken of a label
`g : α → β` that the rewriting keeps.
-/

namespace SoftwareSwitches.Lib.FifoPath

variable {κ α β : Type*}

def contents (g : α → β) (path : List κ) (q : κ → List α) : List β :=
  path.flatMap fun k => (q k).map g

theorem contents_append (g : α → β) (left right : List κ) (q : κ → List α) :
    contents g (left ++ right) q = contents g left q ++ contents g right q := by
  simp [contents]

theorem contents_cons (g : α → β) (k : κ) (path : List κ) (q : κ → List α) :
    contents g (k :: path) q = (q k).map g ++ contents g path q := by
  simp [contents]

variable [DecidableEq κ]

def push (q : κ → List α) (k : κ) (a : α) : κ → List α :=
  Function.update q k (q k ++ [a])

/-- `dst` comes right after `src` on the way along the path. -/
def Follows (path : List κ) (src dst : κ) : Prop := [dst, src] <:+: path

instance (path : List κ) (src dst : κ) : Decidable (Follows path src dst) :=
  inferInstanceAs (Decidable ([dst, src] <:+: path))

theorem mem_push {q : κ → List α} {k j : κ} {a x : α} (h : x ∈ push q k a j) :
    x ∈ q j ∨ (j = k ∧ x = a) := by
  by_cases hjk : j = k
  · subst hjk
    rw [push, Function.update_self, List.mem_append, List.mem_singleton] at h
    exact h.imp_right fun heq => ⟨rfl, heq⟩
  · rw [push, Function.update_of_ne hjk] at h
    exact Or.inl h

theorem mem_of_mem_update {q : κ → List α} {k j : κ} {items : List α} {x : α}
    (hitems : items ⊆ q k) (h : x ∈ Function.update q k items j) : x ∈ q j := by
  by_cases hjk : j = k
  · subst hjk
    rw [Function.update_self] at h
    exact hitems h
  · rwa [Function.update_of_ne hjk] at h

theorem contents_update_of_notMem (g : α → β) {path : List κ} {k : κ}
    (hk : k ∉ path) (q : κ → List α) (items : List α) :
    contents g path (Function.update q k items) = contents g path q := by
  unfold contents
  apply List.flatMap_congr
  intro j hj
  have hne : j ≠ k := fun heq => hk (heq ▸ hj)
  rw [Function.update_of_ne hne]

theorem contents_push_of_notMem (g : α → β) {path : List κ} {k : κ}
    (hk : k ∉ path) (q : κ → List α) (a : α) :
    contents g path (push q k a) = contents g path q :=
  contents_update_of_notMem g hk q _

theorem contents_push_entry (g : α → β) {exits : List κ} {entry : κ}
    (hentry : entry ∉ exits) (q : κ → List α) (a : α) :
    contents g (exits ++ [entry]) (push q entry a) =
      contents g (exits ++ [entry]) q ++ [g a] := by
  rw [contents_append, contents_append, contents_push_of_notMem g hentry]
  simp [contents, push]

/-- Moving the head of a queue to the tail of the next queue of the path leaves
the order of everything on the path unchanged. -/
theorem contents_move (g : α → β) {path : List κ} (hnodup : path.Nodup)
    {src dst : κ} (hfollows : Follows path src dst) {q : κ → List α}
    {a b : α} {rest : List α} (hsrc : q src = a :: rest) (hlabel : g b = g a) :
    contents g path (push (Function.update q src rest) dst b) =
      contents g path q := by
  obtain ⟨exits, entries, rfl⟩ := hfollows
  rw [List.append_assoc, List.cons_append, List.cons_append, List.nil_append] at hnodup ⊢
  rw [List.nodup_append] at hnodup
  obtain ⟨_, htail, hdisjoint⟩ := hnodup
  have hdst : dst ∉ src :: entries := (List.nodup_cons.mp htail).1
  have hsrcEntries : src ∉ entries :=
    (List.nodup_cons.mp (List.nodup_cons.mp htail).2).1
  have hne : dst ≠ src := fun heq => hdst (by simp [heq])
  have hdstExits : dst ∉ exits := fun hmem => hdisjoint dst hmem dst (by simp) rfl
  have hsrcExits : src ∉ exits := fun hmem => hdisjoint src hmem src (by simp) rfl
  have hdstEntries : dst ∉ entries := fun hmem => hdst (by simp [hmem])
  simp only [contents_append, contents_cons]
  rw [contents_push_of_notMem g hdstExits, contents_push_of_notMem g hdstEntries,
    contents_update_of_notMem g hsrcExits, contents_update_of_notMem g hsrcEntries]
  simp [push, Function.update_of_ne hne, Function.update_of_ne hne.symm, hsrc, hlabel]

theorem contents_move_off (g : α → β) {path : List κ} {src dst : κ}
    (hsrc : src ∉ path) (hdst : dst ∉ path) (q : κ → List α) (b : α)
    (rest : List α) :
    contents g path (push (Function.update q src rest) dst b) =
      contents g path q := by
  rw [contents_push_of_notMem g hdst, contents_update_of_notMem g hsrc]

theorem contents_drop_sublist (g : α → β) (path : List κ) (q : κ → List α)
    (k : κ) (i : ℕ) :
    (contents g path (Function.update q k ((q k).eraseIdx i))).Sublist
      (contents g path q) := by
  induction path with
  | nil => simp [contents]
  | cons j path ih =>
      rw [contents_cons, contents_cons]
      apply List.Sublist.append _ ih
      by_cases hjk : j = k
      · subst hjk
        rw [Function.update_self]
        exact (List.eraseIdx_sublist _ i).map g
      · rw [Function.update_of_ne hjk]

/-! ## How far the items still have to go -/

omit [DecidableEq κ] in
def weight : List κ → (κ → List α) → ℕ
  | [], _ => 0
  | _ :: path, q => (contents id path q).length + weight path q

theorem weight_update_of_notMem {path : List κ} {k : κ} (hk : k ∉ path) (q : κ → List α)
    (items : List α) : weight path (Function.update q k items) = weight path q := by
  induction path with
  | nil => rfl
  | cons j path ih =>
      have hpath : k ∉ path := fun hmem => hk (List.mem_cons_of_mem _ hmem)
      rw [weight, weight, ih hpath, contents_update_of_notMem id hpath]

theorem weight_move_off {path : List κ} {src dst : κ} (hsrc : src ∉ path) (hdst : dst ∉ path)
    (q : κ → List α) (b : α) (rest : List α) :
    weight path (push (Function.update q src rest) dst b) = weight path q := by
  rw [push, weight_update_of_notMem hdst, weight_update_of_notMem hsrc]

theorem weight_move {path : List κ} (hnodup : path.Nodup) {src dst : κ}
    (hfollows : Follows path src dst) {q : κ → List α} {a : α} {rest : List α}
    (hsrc : q src = a :: rest) (b : α) :
    weight path (push (Function.update q src rest) dst b) + 1 = weight path q := by
  obtain ⟨exits, entries, rfl⟩ := hfollows
  rw [List.append_assoc, List.cons_append, List.cons_append, List.nil_append] at hnodup ⊢
  have hlength : ∀ path : List κ, path.Nodup → Follows path src dst →
      (contents id path (push (Function.update q src rest) dst b)).length =
        (contents id path q).length := by
    intro path hpath hfollows
    have hsame := contents_move (fun _ : α => ()) hpath hfollows hsrc (b := b) rfl
    have hcongr := congrArg List.length hsame
    simpa [contents] using hcongr
  induction exits with
  | nil =>
      obtain ⟨hdst, htail⟩ := List.nodup_cons.mp hnodup
      obtain ⟨hsrcEntries, -⟩ := List.nodup_cons.mp htail
      have hdstEntries : dst ∉ entries := fun hmem => hdst (List.mem_cons_of_mem _ hmem)
      have hne : src ≠ dst := fun heq => hdst (by simp [heq])
      simp only [List.nil_append, weight, contents_cons]
      rw [contents_push_of_notMem id hdstEntries, contents_update_of_notMem id hsrcEntries,
        weight_move_off hsrcEntries hdstEntries]
      simp [push, Function.update_of_ne hne, hsrc]
      omega
  | cons k exits ih =>
      have htail : (exits ++ dst :: src :: entries).Nodup := (List.nodup_cons.mp hnodup).2
      simp only [List.cons_append, weight]
      rw [hlength _ htail ⟨exits, entries, by simp⟩, Nat.add_assoc, ih htail]

omit [DecidableEq κ] in
theorem contents_of_weight_eq_zero (g : α → β) {k : κ} {path : List κ} {q : κ → List α}
    (h : weight (k :: path) q = 0) : contents g (k :: path) q = (q k).map g := by
  rw [weight, Nat.add_eq_zero_iff, List.length_eq_zero_iff] at h
  have hempty : ∀ j ∈ path, q j = [] := by simpa [contents] using h.1
  rw [contents_cons, List.append_right_eq_self]
  simpa [contents] using hempty

omit [DecidableEq κ] in
theorem weight_eq_zero (k : κ) {path : List κ} {q : κ → List α} (h : ∀ j ∈ path, q j = []) :
    weight (k :: path) q = 0 := by
  induction path generalizing k with
  | nil => rfl
  | cons j path ih =>
      have hempty : contents id (j :: path) q = [] := by simpa [contents] using h
      rw [weight, hempty, ih j (fun i hi => h i (List.mem_cons_of_mem _ hi))]
      rfl

end SoftwareSwitches.Lib.FifoPath
