import Mathlib.Data.List.Basic
import Mathlib.Tactic.SplitIfs

/-!
# Runs of a system whose actions may be disabled

A system is a partial step function: `step s a` is the state after action `a`,
or `none` where `a` cannot happen in `s`.  A run is a list of actions, in
whatever order a scheduler picked them, so a statement about every run is a
statement about every interleaving.
-/

namespace SoftwareSwitches.Lib.Execution

variable {σ α : Type*}

/-- The state a list of actions leads to, `none` if one of them is disabled. -/
def exec (step : σ → α → Option σ) : List α → σ → Option σ
  | [], s => some s
  | a :: acts, s => (step s a).bind (exec step acts)

theorem exec_cons (step : σ → α → Option σ) (a : α) (acts : List α) (s : σ) :
    exec step (a :: acts) s = (step s a).bind (exec step acts) := rfl

theorem exec_cons_eq_some {step : σ → α → Option σ} {a : α} {acts : List α}
    {s t : σ} :
    exec step (a :: acts) s = some t ↔
      ∃ u, step s a = some u ∧ exec step acts u = some t := by
  simp [exec_cons, Option.bind_eq_some_iff]

theorem exec_append {step : σ → α → Option σ} (acts₁ acts₂ : List α) (s : σ) :
    exec step (acts₁ ++ acts₂) s = (exec step acts₁ s).bind (exec step acts₂) := by
  induction acts₁ generalizing s with
  | nil => rfl
  | cons a acts₁ ih =>
      simp only [List.cons_append, exec_cons]
      cases step s a with
      | none => rfl
      | some u => exact ih u

theorem exec_invariant {step : σ → α → Option σ} {Inv : σ → Prop}
    (hstep : ∀ s a t, Inv s → step s a = some t → Inv t)
    {acts : List α} {s t : σ} (hs : Inv s) (hrun : exec step acts s = some t) :
    Inv t := by
  induction acts generalizing s with
  | nil =>
      cases hrun
      exact hs
  | cons a acts ih =>
      obtain ⟨u, hu, hrest⟩ := exec_cons_eq_some.mp hrun
      exact ih (hstep s a u hs hu) hrest

theorem exec_invariant_of_mem {step : σ → α → Option σ} {P : σ → Prop} {acts : List α}
    (hstep : ∀ s a t, a ∈ acts → P s → step s a = some t → P t) {s t : σ} (hs : P s)
    (hrun : exec step acts s = some t) : P t := by
  induction acts generalizing s with
  | nil =>
      cases hrun
      exact hs
  | cons a acts ih =>
      obtain ⟨u, hu, hrest⟩ := exec_cons_eq_some.mp hrun
      apply ih _ (hstep s a u (by simp) hs hu) hrest
      intro s a t ha
      exact hstep s a t (List.mem_cons_of_mem _ ha)

/-- A system that can do each action of another, under some name, has its runs. -/
theorem exec_map {β : Type*} {step₁ : σ → α → Option σ} {step₂ : σ → β → Option σ} {f : α → β}
    (hstep : ∀ s a t, step₁ s a = some t → step₂ s (f a) = some t) {acts : List α} {s t : σ}
    (hrun : exec step₁ acts s = some t) : exec step₂ (acts.map f) s = some t := by
  induction acts generalizing s with
  | nil => exact hrun
  | cons a acts ih =>
      obtain ⟨u, hu, hrest⟩ := exec_cons_eq_some.mp hrun
      exact exec_cons_eq_some.mpr ⟨u, hstep s a u hu, ih hrest⟩

/-- Two systems whose steps agree wherever an invariant of the first holds have
the same runs. -/
theorem exec_congr {step₁ step₂ : σ → α → Option σ} {Inv : σ → Prop}
    (hstep : ∀ s a t, Inv s → step₁ s a = some t → Inv t)
    (hagree : ∀ s a, Inv s → step₁ s a = step₂ s a)
    (acts : List α) {s : σ} (hs : Inv s) :
    exec step₁ acts s = exec step₂ acts s := by
  induction acts generalizing s with
  | nil => rfl
  | cons a acts ih =>
      simp only [exec_cons]
      rw [← hagree s a hs]
      cases hu : step₁ s a with
      | none => rfl
      | some u => exact ih (hstep s a u hs hu)

theorem exec_congr_of_mem {step₁ step₂ : σ → α → Option σ} {P : σ → Prop} {acts : List α}
    (hstep : ∀ s a t, a ∈ acts → P s → step₁ s a = some t → P t)
    (hagree : ∀ s a, a ∈ acts → P s → step₁ s a = step₂ s a) {s : σ} (hs : P s) :
    exec step₁ acts s = exec step₂ acts s := by
  induction acts generalizing s with
  | nil => rfl
  | cons a acts ih =>
      simp only [exec_cons]
      rw [← hagree s a (by simp) hs]
      cases hu : step₁ s a with
      | none => rfl
      | some u =>
          apply ih _ _ (hstep s a u (by simp) hs hu)
          · intro s a t ha
            exact hstep s a t (List.mem_cons_of_mem _ ha)
          · intro s a ha
            exact hagree s a (List.mem_cons_of_mem _ ha)

/-! ## Runs whose steps all meet a condition -/

section Guarded

variable (ok : σ → α → Prop) [∀ s a, Decidable (ok s a)]

def guarded (step : σ → α → Option σ) (s : σ) (a : α) : Option σ :=
  if ok s a then step s a else none

variable {ok}

theorem guarded_eq_some {step : σ → α → Option σ} {s t : σ} {a : α} :
    guarded ok step s a = some t ↔ ok s a ∧ step s a = some t := by
  unfold guarded
  split_ifs with hok <;> simp [hok]

/-- A run either meets the condition at every step or ends in a state that a
violation leads to. -/
theorem exec_guarded_or {step : σ → α → Option σ} {Inv Bad : σ → Prop}
    (hinv : ∀ s a t, Inv s → ok s a → step s a = some t → Inv t)
    (hbad : ∀ s a t, Inv s → ¬ ok s a → step s a = some t → Bad t)
    (hstay : ∀ s a t, Bad s → step s a = some t → Bad t)
    {acts : List α} {s t : σ} (hs : Inv s) (hrun : exec step acts s = some t) :
    exec (guarded ok step) acts s = some t ∨ Bad t := by
  induction acts generalizing s with
  | nil => exact Or.inl hrun
  | cons a acts ih =>
      obtain ⟨u, hu, hrest⟩ := exec_cons_eq_some.mp hrun
      by_cases hok : ok s a
      · rcases ih (hinv s a u hs hok hu) hrest with hguarded | hbad'
        · left
          rw [exec_cons_eq_some]
          exact ⟨u, guarded_eq_some.mpr ⟨hok, hu⟩, hguarded⟩
        · exact Or.inr hbad'
      · exact Or.inr (exec_invariant hstay (hbad s a u hs hok hu) hrest)

end Guarded

/-! ## Runs with output -/

section Output

variable {τ ω : Type*}

def runOut (step : σ → α → σ × List ω) : σ → List α → σ × List ω
  | s, [] => (s, [])
  | s, a :: acts =>
    ((runOut step (step s a).1 acts).1, (step s a).2 ++ (runOut step (step s a).1 acts).2)

theorem runOut_append (step : σ → α → σ × List ω) (s : σ) (acts₁ acts₂ : List α) :
    runOut step s (acts₁ ++ acts₂) =
      ((runOut step (runOut step s acts₁).1 acts₂).1,
        (runOut step s acts₁).2 ++ (runOut step (runOut step s acts₁).1 acts₂).2) := by
  induction acts₁ generalizing s with
  | nil => rfl
  | cons a acts₁ ih => simp only [List.cons_append, runOut, ih, List.append_assoc]

theorem runOut_invariant {step : σ → α → σ × List ω} {P : σ → Prop} {acts : List α}
    (hstep : ∀ s a, a ∈ acts → P s → P (step s a).1) {s : σ} (hs : P s) :
    P (runOut step s acts).1 := by
  induction acts generalizing s with
  | nil => exact hs
  | cons a acts ih =>
      apply ih _ (hstep s a (by simp) hs)
      intro s a ha
      exact hstep s a (List.mem_cons_of_mem _ ha)

theorem runOut_simulation {step₁ : σ → α → σ × List ω} {step₂ : τ → α → τ × List ω}
    {R : σ → τ → Prop} {acts : List α}
    (hstep : ∀ s t a, a ∈ acts → R s t →
      R (step₁ s a).1 (step₂ t a).1 ∧ (step₁ s a).2 = (step₂ t a).2)
    {s : σ} {t : τ} (h : R s t) :
    R (runOut step₁ s acts).1 (runOut step₂ t acts).1 ∧
      (runOut step₁ s acts).2 = (runOut step₂ t acts).2 := by
  induction acts generalizing s t with
  | nil => exact ⟨h, rfl⟩
  | cons a acts ih =>
      obtain ⟨hnext, hout⟩ := hstep s t a (by simp) h
      obtain ⟨hlast, hrest⟩ :=
        ih (fun s t a ha => hstep s t a (List.mem_cons_of_mem _ ha)) hnext
      refine ⟨hlast, ?_⟩
      simp only [runOut]
      rw [hout, hrest]

end Output

end SoftwareSwitches.Lib.Execution
