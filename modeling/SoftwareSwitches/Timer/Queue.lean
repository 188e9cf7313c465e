import SoftwareSwitches.Timer.SkipList
import Mathlib.Data.List.TakeWhile

/-!
# What the timers of an lcore are for

A queue of timers in the order of expiry, with the states of `rte_timer.h`.  A callback
may reset and stop timers itself, also its own; the timers that are waiting for their
own callback are not touched by it.
-/

namespace SoftwareSwitches.Timer

inductive TimerState
  | stop
  | pending
  | running
  | config
deriving DecidableEq, Repr

/-- The fields of the timers outside the list, and those of `struct priv_timer` that
belong to the running callback.  The timers of the lcore are owned by it. -/
structure Info (T C : Type*) where
  state : T → TimerState
  period : T → ℕ
  f : T → Option C
  updated : Bool
  runningTim : Option T

/-- A call of the timer API; `curTime` is the time it reads, `rand` the level it draws. -/
inductive Request (T C : Type*)
  | reset (tim : T) (curTime ticks : ℕ) (periodical : Bool) (fct : C) (rand : ℕ)
  | stop (tim : T)

def Request.timer {T C : Type*} : Request T C → T
  | .reset tim _ _ _ _ _ => tim
  | .stop tim => tim

variable {T C : Type*} [DecidableEq T]

/-- `timer_set_config_state`: the state before, or `none` for the result `-1`. -/
def timerSetConfigState (info : Info T C) (tim : T) : Option (TimerState × Info T C) :=
  if info.state tim = .running ∧ info.runningTim ≠ some tim then none
  else if info.state tim = .config then none
  else some (info.state tim, { info with state := Function.update info.state tim .config })

/-- A callback that touches its own timer is noticed by `rte_timer_manage`. -/
def Info.noteUpdate (info : Info T C) (prev : TimerState) : Info T C :=
  if prev = .running then { info with updated := true } else info

def Info.arm (info : Info T C) (tim : T) (period : ℕ) (fct : Option C) : Info T C :=
  { info with
    period := Function.update info.period tim period
    f := Function.update info.f tim fct
    state := Function.update info.state tim .pending }

def Info.setState (info : Info T C) (tim : T) (state : TimerState) : Info T C :=
  { info with state := Function.update info.state tim state }

def Info.start (info : Info T C) (tim : T) : Info T C :=
  { info with updated := false, runningTim := some tim }

def Info.run (info : Info T C) (due : List T) : Info T C :=
  { info with state := fun t => if t ∈ due then .running else info.state t }

/-- The timers that are pending, the first to expire in front. -/
structure Queue (T C : Type*) where
  pending : List T
  expire : T → ℕ
  info : Info T C

namespace Queue

def reset (q : Queue T C) (tim : T) (expire period : ℕ) (fct : Option C) :
    Option (Queue T C) :=
  match timerSetConfigState q.info tim with
  | none => none
  | some (prev, info) =>
    let pending := if prev = .pending then q.pending.erase tim else q.pending
    let expire := Function.update q.expire tim expire
    some ⟨place expire tim pending, expire, (info.noteUpdate prev).arm tim period fct⟩

def stop (q : Queue T C) (tim : T) : Option (Queue T C) :=
  match timerSetConfigState q.info tim with
  | none => none
  | some (prev, info) =>
    let pending := if prev = .pending then q.pending.erase tim else q.pending
    some ⟨pending, q.expire, (info.noteUpdate prev).setState tim .stop⟩

def serve (q : Queue T C) : Request T C → Queue T C
  | .reset tim curTime ticks periodical fct _ =>
    (q.reset tim ((curTime + ticks) % 2 ^ 64) (if periodical then ticks else 0)
      (some fct)).getD q
  | .stop tim => (q.stop tim).getD q

def runOne (calls : T → List (Request T C)) (q : Queue T C) (tim : T) : Queue T C :=
  let q := { q with info := q.info.start tim }
  let q := (calls tim).foldl serve q
  if q.info.updated then q
  else if q.info.period tim = 0 then { q with info := q.info.setState tim .stop }
  else
    let q := { q with info := q.info.setState tim .pending }
    (q.reset tim ((q.expire tim + q.info.period tim) % 2 ^ 64) (q.info.period tim)
      (q.info.f tim)).getD q

def runAll (calls : T → List (Request T C)) : Queue T C → List T →
    Queue T C × List (T × Option C)
  | q, [] => (q, [])
  | q, tim :: due =>
    let called := (tim, q.info.f tim)
    let (q, log) := runAll calls (q.runOne calls tim) due
    (q, called :: log)

def breakAt (q : Queue T C) (curTime : ℕ) : Queue T C :=
  { q with
    pending := remaining q.expire curTime q.pending
    info := q.info.run (expired q.expire curTime q.pending) }

def manage (q : Queue T C) (curTime : ℕ) (calls : T → List (Request T C)) :
    Queue T C × List (T × Option C) :=
  let due := expired q.expire curTime q.pending
  if due = [] then (q, [])
  else
    let (q, log) := (q.breakAt curTime).runAll calls due
    ({ q with info := { q.info with runningTim := none } }, log)

end Queue

/-! ## What a call changes -/

theorem mem_of_mem_delete {tim t : T} {l : List T} {c : Prop} [Decidable c]
    (h : t ∈ if c then l.erase tim else l) : t ∈ l := by
  split_ifs at h
  · exact List.mem_of_mem_erase h
  · exact h

theorem timerSetConfigState_eq_some {info info' : Info T C} {tim : T} {prev : TimerState}
    (h : timerSetConfigState info tim = some (prev, info')) :
    prev = info.state tim ∧ info' = info.setState tim .config ∧
      (info.state tim = .running → info.runningTim = some tim) := by
  unfold timerSetConfigState at h
  split_ifs at h with hrunning hconfig
  simp only [Option.some.injEq, Prod.mk.injEq] at h
  refine ⟨h.1.symm, h.2.symm, ?_⟩
  intro hstate
  by_contra hother
  exact hrunning ⟨hstate, hother⟩

variable {q q' : Queue T C}

section InfoFields

variable (info : Info T C) (prev : TimerState)

omit [DecidableEq T]

@[simp] theorem Info.noteUpdate_state : (info.noteUpdate prev).state = info.state := by
  unfold Info.noteUpdate
  split_ifs <;> rfl

@[simp] theorem Info.noteUpdate_period : (info.noteUpdate prev).period = info.period := by
  unfold Info.noteUpdate
  split_ifs <;> rfl

@[simp] theorem Info.noteUpdate_f : (info.noteUpdate prev).f = info.f := by
  unfold Info.noteUpdate
  split_ifs <;> rfl

@[simp] theorem Info.noteUpdate_runningTim :
    (info.noteUpdate prev).runningTim = info.runningTim := by
  unfold Info.noteUpdate
  split_ifs <;> rfl

@[simp] theorem Info.noteUpdate_updated : (info.noteUpdate prev).updated = false ↔
    info.updated = false ∧ prev ≠ .running := by
  unfold Info.noteUpdate
  split_ifs with hprev <;> simp [hprev]

end InfoFields

structure Queue.Keeps (q q' : Queue T C) (r : T) : Prop where
  expire : q'.expire r = q.expire r
  state : q'.info.state r = q.info.state r
  period : q'.info.period r = q.info.period r
  f : q'.info.f r = q.info.f r

section Keeps

omit [DecidableEq T]

theorem Queue.Keeps.refl (q : Queue T C) (r : T) : q.Keeps q r := ⟨rfl, rfl, rfl, rfl⟩

theorem Queue.Keeps.trans {q₁ q₂ q₃ : Queue T C} {r : T} (h₁ : q₁.Keeps q₂ r)
    (h₂ : q₂.Keeps q₃ r) : q₁.Keeps q₃ r where
  expire := h₂.expire.trans h₁.expire
  state := h₂.state.trans h₁.state
  period := h₂.period.trans h₁.period
  f := h₂.f.trans h₁.f

structure Queue.Rearms (q q' : Queue T C) (tim : T) : Prop where
  expire : q'.expire tim = (q.expire tim + q.info.period tim) % 2 ^ 64
  state : q'.info.state tim = .pending
  period : q'.info.period tim = q.info.period tim
  f : q'.info.f tim = q.info.f tim

theorem Queue.Keeps.rearms {q₁ q₂ q₃ : Queue T C} {tim : T} (h₁ : q₁.Keeps q₂ tim)
    (h₂ : q₂.Rearms q₃ tim) : q₁.Rearms q₃ tim where
  expire := by rw [h₂.expire, h₁.expire, h₁.period]
  state := h₂.state
  period := h₂.period.trans h₁.period
  f := h₂.f.trans h₁.f

theorem Queue.Rearms.keeps {q₁ q₂ q₃ : Queue T C} {tim : T} (h₁ : q₁.Rearms q₂ tim)
    (h₂ : q₂.Keeps q₃ tim) : q₁.Rearms q₃ tim where
  expire := h₂.expire.trans h₁.expire
  state := h₂.state.trans h₁.state
  period := h₂.period.trans h₁.period
  f := h₂.f.trans h₁.f

end Keeps

structure Queue.Changes (q q' : Queue T C) (tim : T) : Prop where
  own : q.info.state tim = .running → q.info.runningTim = some tim
  done : q'.info.state tim ≠ .running
  others : ∀ r, r ≠ tim → q.Keeps q' r
  runningTim : q'.info.runningTim = q.info.runningTim
  updated : q'.info.updated = false ↔ q.info.updated = false ∧ q.info.state tim ≠ .running

namespace Queue

theorem reset_cases (q : Queue T C) (tim : T) (expire period : ℕ) (fct : Option C) :
    (q.reset tim expire period fct).getD q = q ∨
      q.Changes ((q.reset tim expire period fct).getD q) tim := by
  unfold reset
  cases hconfig : timerSetConfigState q.info tim with
  | none => exact Or.inl rfl
  | some result =>
      obtain ⟨prev, info⟩ := result
      obtain ⟨rfl, rfl, hown⟩ := timerSetConfigState_eq_some hconfig
      refine Or.inr ⟨hown, ?_, ?_, ?_, Info.noteUpdate_updated _ _⟩
      · simp [Info.arm]
      · intro r hne
        constructor <;> simp [Info.arm, Info.setState, Function.update_of_ne hne]
      · simp [Info.arm, Info.setState]

theorem stop_cases (q : Queue T C) (tim : T) :
    (q.stop tim).getD q = q ∨ q.Changes ((q.stop tim).getD q) tim := by
  unfold stop
  cases hconfig : timerSetConfigState q.info tim with
  | none => exact Or.inl rfl
  | some result =>
      obtain ⟨prev, info⟩ := result
      obtain ⟨rfl, rfl, hown⟩ := timerSetConfigState_eq_some hconfig
      refine Or.inr ⟨hown, ?_, ?_, ?_, Info.noteUpdate_updated _ _⟩
      · simp [Info.setState]
      · intro r hne
        constructor <;> simp [Info.setState, Function.update_of_ne hne]
      · simp [Info.setState]

theorem serve_cases (q : Queue T C) (request : Request T C) :
    q.serve request = q ∨ q.Changes (q.serve request) request.timer := by
  cases request with
  | reset tim curTime ticks periodical fct rand => exact q.reset_cases tim _ _ _
  | stop tim => exact q.stop_cases tim

theorem reset_keeps (q : Queue T C) {tim r : T} (hne : r ≠ tim) (expire period : ℕ)
    (fct : Option C) : q.Keeps ((q.reset tim expire period fct).getD q) r := by
  rcases q.reset_cases tim expire period fct with hsame | hchange
  · rw [hsame]
    exact Keeps.refl q r
  · exact hchange.others r hne

theorem serve_runningTim (q : Queue T C) (request : Request T C) :
    (q.serve request).info.runningTim = q.info.runningTim := by
  rcases q.serve_cases request with hsame | hchange
  · rw [hsame]
  · exact hchange.runningTim

/-- Requests that do not name a timer leave it as it is, and so do all requests while it
waits in the run-list for its own callback. -/
def Spares (q : Queue T C) (requests : List (Request T C)) (r : T) : Prop :=
  (∀ request ∈ requests, r ≠ request.timer) ∨
    q.info.state r = .running ∧ q.info.runningTim ≠ some r

theorem serve_keeps {r : T} {request : Request T C} {requests : List (Request T C)}
    (h : q.Spares (request :: requests) r) : q.Keeps (q.serve request) r := by
  rcases q.serve_cases request with hsame | hchange
  · rw [hsame]
    exact Keeps.refl q r
  · apply hchange.others
    rcases h with hne | ⟨hstate, hother⟩
    · exact hne request (by simp)
    · intro heq
      rw [heq] at hstate hother
      exact hother (hchange.own hstate)

theorem Spares.tail {r : T} {request : Request T C} {requests : List (Request T C)}
    (h : q.Spares (request :: requests) r) : (q.serve request).Spares requests r := by
  have hkeeps := serve_keeps h
  rcases h with hne | ⟨hstate, hother⟩
  · left
    intro other hmem
    exact hne other (List.mem_cons_of_mem _ hmem)
  · right
    rw [hkeeps.state, serve_runningTim]
    exact ⟨hstate, hother⟩

theorem serve_all_keeps {r : T} {requests : List (Request T C)} (h : q.Spares requests r) :
    q.Keeps (requests.foldl serve q) r := by
  induction requests generalizing q with
  | nil => exact Keeps.refl q r
  | cons request requests ih => exact (serve_keeps h).trans (ih h.tail)

/-! ## The callback's own timer -/

/-- The callback of `tim` has begun in `q` and come to `q'`; until it touches its own
timer, the timer is running and as it was. -/
structure Own (q q' : Queue T C) (tim : T) : Prop where
  runningTim : q'.info.runningTim = some tim
  updated : q'.info.updated = false ↔ q'.info.state tim = .running
  untouched : q'.info.updated = false → q.Keeps q' tim

theorem Own.serve {tim : T} (h : q.Own q' tim) (request : Request T C) :
    q.Own (q'.serve request) tim := by
  rcases q'.serve_cases request with hsame | hchange
  · rw [hsame]
    exact h
  · by_cases heq : tim = request.timer
    · -- from here on the timer is neither running nor untouched
      subst heq
      have hfalse : (q'.serve request).info.updated ≠ false := by
        intro hupdated
        obtain ⟨hold, hprev⟩ := hchange.updated.mp hupdated
        exact hprev (h.updated.mp hold)
      refine ⟨hchange.runningTim.trans h.runningTim, ?_, ?_⟩
      · exact ⟨fun hupdated => absurd hupdated hfalse, fun hstate => absurd hstate hchange.done⟩
      · exact fun hupdated => absurd hupdated hfalse
    · have hkeeps := hchange.others tim heq
      have hother : q'.info.state request.timer ≠ .running := by
        intro hstate
        have hrunning := hchange.own hstate
        rw [h.runningTim] at hrunning
        exact heq (Option.some.inj hrunning)
      have hsame : (q'.serve request).info.updated = false ↔ q'.info.updated = false := by
        rw [hchange.updated]
        exact and_iff_left hother
      refine ⟨hchange.runningTim.trans h.runningTim, ?_, ?_⟩
      · rw [hsame, hkeeps.state]
        exact h.updated
      · intro hupdated
        exact (h.untouched (hsame.mp hupdated)).trans hkeeps

theorem Own.serve_all {tim : T} (h : q.Own q' tim) (requests : List (Request T C)) :
    q.Own (requests.foldl Queue.serve q') tim := by
  induction requests generalizing q' with
  | nil => exact h
  | cons request requests ih => exact ih (h.serve request)

theorem callback_own {tim : T} (hstate : q.info.state tim = .running)
    (requests : List (Request T C)) :
    q.Own (requests.foldl serve { q with info := q.info.start tim }) tim := by
  apply Own.serve_all
  refine ⟨rfl, ?_, ?_⟩
  · exact ⟨fun _ => hstate, fun _ => rfl⟩
  · exact fun _ => ⟨rfl, rfl, rfl, rfl⟩

/-! ## The loop over the run-list -/

section Loop

variable {calls : T → List (Request T C)} {tim r : T}

theorem runOne_keeps (hne : r ≠ tim)
    (h : (∀ request ∈ calls tim, r ≠ request.timer) ∨ q.info.state r = .running) :
    q.Keeps (q.runOne calls tim) r := by
  have hspares : Spares { q with info := q.info.start tim } (calls tim) r := by
    refine h.imp id ?_
    intro hstate
    exact ⟨hstate, by simpa [Info.start] using hne.symm⟩
  have hstart : q.Keeps { q with info := q.info.start tim } r := ⟨rfl, rfl, rfl, rfl⟩
  have hkeeps := hstart.trans (serve_all_keeps hspares)
  unfold runOne
  dsimp only
  revert hkeeps
  generalize List.foldl serve _ (calls tim) = q₁
  intro hkeeps
  have hset : ∀ state, q₁.Keeps { q₁ with info := q₁.info.setState tim state } r := by
    intro state
    exact ⟨rfl, Function.update_of_ne hne _ _, rfl, rfl⟩
  split_ifs
  · exact hkeeps
  · exact hkeeps.trans (hset .stop)
  · exact (hkeeps.trans (hset .pending)).trans (reset_keeps _ hne _ _ _)

theorem runOne_rearms (hstate : q.info.state tim = .running) (hperiod : q.info.period tim ≠ 0)
    (hcalls : ∀ request ∈ calls tim, tim ≠ request.timer) :
    q.Rearms (q.runOne calls tim) tim := by
  have hspares : Spares { q with info := q.info.start tim } (calls tim) tim := Or.inl hcalls
  have hstart : q.Keeps { q with info := q.info.start tim } tim := ⟨rfl, rfl, rfl, rfl⟩
  have hkeeps := hstart.trans (serve_all_keeps hspares)
  have hown := callback_own hstate (calls tim)
  unfold runOne
  dsimp only
  revert hkeeps hown
  generalize List.foldl serve _ (calls tim) = q₁
  intro hkeeps hown
  have hupdated : q₁.info.updated = false := hown.updated.mpr (hkeeps.state.trans hstate)
  rw [← hkeeps.period] at hperiod
  simp only [hupdated, Bool.false_eq_true, if_false, if_neg hperiod]
  constructor <;>
    simp [reset, timerSetConfigState, Info.setState, Info.arm, hkeeps.expire, hkeeps.period,
      hkeeps.f]

theorem runAll_keeps {due : List T} (hr : r ∉ due)
    (h : ∀ t ∈ due, ∀ request ∈ calls t, r ≠ request.timer) :
    q.Keeps (q.runAll calls due).1 r := by
  induction due generalizing q with
  | nil => exact Keeps.refl q r
  | cons tim rest ih =>
      have hfirst : q.Keeps (q.runOne calls tim) r :=
        runOne_keeps (fun heq => hr (by simp [heq])) (Or.inl (h tim (by simp)))
      have hrest := ih (q := q.runOne calls tim) (fun hmem => hr (List.mem_cons_of_mem _ hmem))
        (fun t ht => h t (List.mem_cons_of_mem _ ht))
      exact hfirst.trans hrest

theorem runAll_append (q : Queue T C) (calls : T → List (Request T C)) (a b : List T) :
    (q.runAll calls (a ++ b)).1 = ((q.runAll calls a).1.runAll calls b).1 := by
  induction a generalizing q with
  | nil => rfl
  | cons tim a ih => exact ih (q.runOne calls tim)

theorem runAll_rearms {due : List T} (hdue : due.Nodup) (htim : tim ∈ due)
    (hstate : q.info.state tim = .running) (hperiod : q.info.period tim ≠ 0)
    (hcalls : ∀ t, ∀ request ∈ calls t, tim ≠ request.timer) :
    q.Rearms (q.runAll calls due).1 tim := by
  obtain ⟨before, after, rfl⟩ := List.append_of_mem htim
  rw [List.nodup_append, List.nodup_cons] at hdue
  obtain ⟨-, ⟨hafter, -⟩, hdisjoint⟩ := hdue
  have hbefore : tim ∉ before := fun hmem => hdisjoint tim hmem tim (by simp) rfl
  have hfirst : q.Keeps (q.runAll calls before).1 tim :=
    runAll_keeps hbefore (fun t _ => hcalls t)
  rw [runAll_append]
  generalize (q.runAll calls before).1 = q₁ at hfirst ⊢
  have hown : q₁.Rearms (q₁.runOne calls tim) tim := by
    apply runOne_rearms (hfirst.state.trans hstate) _ (hcalls tim)
    rw [hfirst.period]
    exact hperiod
  have hlast : (q₁.runOne calls tim).Keeps ((q₁.runOne calls tim).runAll calls after).1 tim :=
    runAll_keeps hafter (fun t _ => hcalls t)
  exact hfirst.rearms (hown.keeps hlast)

/-- Every timer of the run-list is called once, in order, with the callback it came with. -/
theorem runAll_log {due : List T} (hnodup : due.Nodup)
    (hstate : ∀ t ∈ due, q.info.state t = .running) :
    (q.runAll calls due).2 = due.map (fun t => (t, q.info.f t)) := by
  induction due generalizing q with
  | nil => rfl
  | cons tim rest ih =>
      obtain ⟨hfirst, hrest⟩ := List.nodup_cons.mp hnodup
      have hkeeps : ∀ r ∈ rest, q.Keeps (q.runOne calls tim) r := by
        intro r hr
        apply runOne_keeps
        · exact fun heq => hfirst (heq ▸ hr)
        · exact Or.inr (hstate r (List.mem_cons_of_mem _ hr))
      have htail := ih (q := q.runOne calls tim) hrest (by
        intro r hr
        rw [(hkeeps r hr).state]
        exact hstate r (List.mem_cons_of_mem _ hr))
      show (tim, q.info.f tim) :: ((q.runOne calls tim).runAll calls rest).2 = _
      rw [htail, List.map_cons]
      congr 1
      apply List.map_congr_left
      intro r hr
      rw [(hkeeps r hr).f]

end Loop

/-! ## The queue between two calls -/

/-- A timer is in the queue exactly if it is `PENDING`; those in `due` may be `RUNNING`. -/
structure Settled (q : Queue T C) (due : List T) : Prop where
  nodup : q.pending.Nodup
  pending : ∀ t, t ∈ q.pending ↔ q.info.state t = .pending
  config : ∀ t, q.info.state t ≠ .config
  running : ∀ t, q.info.state t = .running → t ∈ due

structure SettledBut (q : Queue T C) (tim : T) (due : List T) : Prop where
  nodup : q.pending.Nodup
  own : tim ∈ q.pending → q.info.state tim = .pending
  pending : ∀ t, t ≠ tim → (t ∈ q.pending ↔ q.info.state t = .pending)
  config : ∀ t, t ≠ tim → q.info.state t ≠ .config
  running : ∀ t, t ≠ tim → q.info.state t = .running → t ∈ due

variable {due : List T} {tim : T} {calls : T → List (Request T C)}

omit [DecidableEq T] in
theorem Settled.but (h : q.Settled due) (tim : T) : q.SettledBut tim due where
  nodup := h.nodup
  own := (h.pending tim).mp
  pending t _ := h.pending t
  config t _ := h.config t
  running t _ := h.running t

theorem SettledBut.delete (h : q.SettledBut tim due) :
    (if q.info.state tim = .pending then q.pending.erase tim else q.pending).Nodup ∧
      ∀ t, t ∈ (if q.info.state tim = .pending then q.pending.erase tim else q.pending) ↔
        t ≠ tim ∧ t ∈ q.pending := by
  split_ifs with hstate
  · exact ⟨h.nodup.erase tim, fun t => h.nodup.mem_erase_iff⟩
  · refine ⟨h.nodup, ?_⟩
    intro t
    constructor
    · intro hmem
      refine ⟨?_, hmem⟩
      intro heq
      subst heq
      exact hstate (h.own hmem)
    · exact fun hboth => hboth.2

theorem SettledBut.settle (h : q.SettledBut tim due) (hnodup : q'.pending.Nodup)
    (state : TimerState) (hstate : q'.info.state = Function.update q.info.state tim state)
    (hidle : state = .pending ∨ state = .stop) (htim : tim ∈ q'.pending ↔ state = .pending)
    (hmem : ∀ t, t ≠ tim → (t ∈ q'.pending ↔ t ∈ q.pending)) : q'.Settled due := by
  refine ⟨hnodup, ?_, ?_, ?_⟩
  · intro t
    by_cases heq : t = tim
    · rw [hstate, heq, Function.update_self]
      exact htim
    · rw [hstate, Function.update_of_ne heq, hmem t heq]
      exact h.pending t heq
  · intro t
    by_cases heq : t = tim
    · rw [hstate, heq, Function.update_self]
      rcases hidle with rfl | rfl <;> simp
    · rw [hstate, Function.update_of_ne heq]
      exact h.config t heq
  · intro t
    by_cases heq : t = tim
    · rw [hstate, heq, Function.update_self]
      rcases hidle with rfl | rfl <;> simp
    · rw [hstate, Function.update_of_ne heq]
      exact h.running t heq

theorem SettledBut.reset (h : q.SettledBut tim due) {expire period : ℕ} {fct : Option C}
    (hreset : q.reset tim expire period fct = some q') : q'.Settled due := by
  obtain ⟨hnodup, hmem⟩ := h.delete
  unfold Queue.reset at hreset
  cases hconfig : timerSetConfigState q.info tim with
  | none =>
      rw [hconfig] at hreset
      cases hreset
  | some result =>
      obtain ⟨prev, info⟩ := result
      obtain ⟨rfl, rfl, -⟩ := timerSetConfigState_eq_some hconfig
      simp only [hconfig, Option.some.injEq] at hreset
      subst hreset
      have hplace : (place (Function.update q.expire tim expire) tim
          (if q.info.state tim = .pending then q.pending.erase tim else q.pending)).Nodup := by
        apply nodup_place hnodup
        rw [hmem]
        exact fun hboth => hboth.1 rfl
      apply h.settle hplace .pending
      · simp [Info.arm, Info.setState]
      · exact Or.inl rfl
      · simp [mem_place]
      · intro t hne
        simp [mem_place, hmem, hne]

theorem SettledBut.stop (h : q.SettledBut tim due) (hstop : q.stop tim = some q') :
    q'.Settled due := by
  obtain ⟨hnodup, hmem⟩ := h.delete
  unfold Queue.stop at hstop
  cases hconfig : timerSetConfigState q.info tim with
  | none =>
      rw [hconfig] at hstop
      cases hstop
  | some result =>
      obtain ⟨prev, info⟩ := result
      obtain ⟨rfl, rfl, -⟩ := timerSetConfigState_eq_some hconfig
      simp only [hconfig, Option.some.injEq] at hstop
      subst hstop
      apply h.settle hnodup .stop
      · simp [Info.setState]
      · exact Or.inr rfl
      · simp [hmem]
      · intro t hne
        simp [hmem, hne]

theorem Settled.serve (h : q.Settled due) (request : Request T C) :
    (q.serve request).Settled due := by
  cases request with
  | reset tim curTime ticks periodical fct rand =>
      simp only [Queue.serve]
      cases hreset : q.reset tim _ _ _ with
      | none => exact h
      | some q' => exact (h.but tim).reset hreset
  | stop tim =>
      simp only [Queue.serve]
      cases hstop : q.stop tim with
      | none => exact h
      | some q' => exact (h.but tim).stop hstop

theorem Settled.serve_all (h : q.Settled due) (requests : List (Request T C)) :
    (requests.foldl Queue.serve q).Settled due := by
  induction requests generalizing q with
  | nil => exact h
  | cons request requests ih => exact ih (h.serve request)

theorem Settled.runOne (h : q.Settled (tim :: due)) (hstate : q.info.state tim = .running) :
    (q.runOne calls tim).Settled due := by
  have hstart : Settled { q with info := q.info.start tim } (tim :: due) :=
    ⟨h.nodup, h.pending, h.config, h.running⟩
  have hserved := hstart.serve_all (calls tim)
  have hown := callback_own hstate (calls tim)
  unfold Queue.runOne
  dsimp only
  revert hserved hown
  generalize List.foldl Queue.serve _ (calls tim) = q₁
  intro hserved hown
  have hrest : ∀ t, t ≠ tim → q₁.info.state t = .running → t ∈ due := by
    intro t hne hrunning
    exact (List.mem_cons.mp (hserved.running t hrunning)).resolve_left hne
  have hbut : q₁.SettledBut tim due := { hserved.but tim with running := hrest }
  split_ifs with hupdated hperiod
  · refine ⟨hserved.nodup, hserved.pending, hserved.config, ?_⟩
    intro t hrunning
    apply hrest t _ hrunning
    intro heq
    subst heq
    rw [← hown.updated, hupdated] at hrunning
    cases hrunning
  · have hrunning := hown.updated.mp (by simpa using hupdated)
    refine hbut.settle ?_ .stop rfl (Or.inr rfl) ?_ ?_
    · exact hserved.nodup
    · show tim ∈ q₁.pending ↔ _
      rw [hserved.pending tim, hrunning]
      simp
    · exact fun t _ => Iff.rfl
  · have hpend : SettledBut { q₁ with info := q₁.info.setState tim .pending } tim due := by
      refine ⟨hserved.nodup, ?_, ?_, ?_, ?_⟩
      · exact fun _ => Function.update_self _ _ _
      all_goals
        intro t hne
        simp only [Info.setState, Function.update_of_ne hne]
      · exact hserved.pending t
      · exact hserved.config t
      · exact hrest t hne
    cases hreset : Queue.reset { q₁ with info := q₁.info.setState tim .pending } tim _ _ _ with
    | none => simp [reset, timerSetConfigState, Info.setState] at hreset
    | some q' => exact hpend.reset hreset

theorem Settled.runAll (h : q.Settled due) (hnodup : due.Nodup)
    (hstate : ∀ t ∈ due, q.info.state t = .running) : (q.runAll calls due).1.Settled [] := by
  induction due generalizing q with
  | nil => exact h
  | cons tim rest ih =>
      obtain ⟨hfirst, hrest⟩ := List.nodup_cons.mp hnodup
      apply ih (h.runOne (hstate tim (by simp))) hrest
      intro r hr
      have hkeeps : q.Keeps (q.runOne calls tim) r := by
        apply runOne_keeps
        · exact fun heq => hfirst (heq ▸ hr)
        · exact Or.inr (hstate r (List.mem_cons_of_mem _ hr))
      rw [hkeeps.state]
      exact hstate r (List.mem_cons_of_mem _ hr)

theorem Settled.breakAt (h : q.Settled []) (curTime : ℕ) :
    (q.breakAt curTime).Settled (expired q.expire curTime q.pending) := by
  have hparts := expired_append_remaining q.expire curTime q.pending
  have hnodup := h.nodup
  rw [← hparts, List.nodup_append] at hnodup
  refine ⟨hnodup.2.1, ?_, ?_, ?_⟩
  · intro t
    show t ∈ remaining q.expire curTime q.pending ↔ _
    by_cases hexp : t ∈ expired q.expire curTime q.pending
    · simp only [Queue.breakAt, Info.run, if_pos hexp]
      have hnot : t ∉ remaining q.expire curTime q.pending :=
        fun hrem => hnodup.2.2 t hexp t hrem rfl
      simp [hnot]
    · simp only [Queue.breakAt, Info.run, if_neg hexp]
      rw [← h.pending t]
      nth_rewrite 2 [← hparts]
      simp [hexp]
  · intro t
    simp only [Queue.breakAt, Info.run]
    split_ifs
    · simp
    · exact h.config t
  · intro t
    simp only [Queue.breakAt, Info.run]
    split_ifs with hexp
    · exact fun _ => hexp
    · intro hrunning
      exact absurd (h.running t hrunning) (by simp)

omit [DecidableEq T] in
theorem nodup_expired (h : q.pending.Nodup) (curTime : ℕ) :
    (expired q.expire curTime q.pending).Nodup :=
  h.sublist (List.takeWhile_sublist _)

theorem breakAt_running (q : Queue T C) (curTime : ℕ) :
    ∀ t ∈ expired q.expire curTime q.pending, (q.breakAt curTime).info.state t = .running := by
  intro t ht
  simp only [breakAt, Info.run, if_pos ht]

theorem Settled.manage (h : q.Settled []) (curTime : ℕ) :
    (q.manage curTime calls).1.Settled [] := by
  unfold Queue.manage
  dsimp only
  split_ifs
  · exact h
  · have hrun : ((q.breakAt curTime).runAll calls _).1.Settled [] :=
      (h.breakAt curTime).runAll (nodup_expired h.nodup curTime) (breakAt_running q curTime)
    exact ⟨hrun.nodup, hrun.pending, hrun.config, hrun.running⟩

/-- Whatever the callbacks do, the expired timers are called, each once, in their order. -/
theorem manage_log (h : q.pending.Nodup) (curTime : ℕ) :
    (q.manage curTime calls).2 =
      (expired q.expire curTime q.pending).map (fun t => (t, q.info.f t)) := by
  unfold manage
  dsimp only
  split_ifs with hnone
  · simp [hnone]
  · exact runAll_log (nodup_expired h curTime) (breakAt_running q curTime)

theorem manage_log_filter (h : q.pending.Nodup) (curTime : ℕ) (r : T) :
    (q.manage curTime calls).2.filter (fun call => call.1 = r) =
      List.replicate (if r ∈ expired q.expire curTime q.pending then 1 else 0)
        (r, q.info.f r) := by
  have hnodup := nodup_expired h curTime
  have hcount : (expired q.expire curTime q.pending).count r =
      if r ∈ expired q.expire curTime q.pending then 1 else 0 := hnodup.count
  rw [manage_log h, List.filter_map, ← hcount]
  have hsame : ((fun call : T × Option C => decide (call.1 = r)) ∘ fun t => (t, q.info.f t)) =
      fun t => decide (t = r) := rfl
  rw [hsame, List.filter_eq, List.map_replicate]

theorem manage_keeps {r : T} {curTime : ℕ} (hr : r ∉ expired q.expire curTime q.pending)
    (hcalls : ∀ t, ∀ request ∈ calls t, r ≠ request.timer) :
    q.Keeps (q.manage curTime calls).1 r := by
  unfold manage
  dsimp only
  split_ifs
  · exact Keeps.refl q r
  · have hbreak : q.Keeps (q.breakAt curTime) r := ⟨rfl, if_neg hr, rfl, rfl⟩
    have hrun := hbreak.trans (runAll_keeps hr (fun t _ => hcalls t))
    exact ⟨hrun.expire, hrun.state, hrun.period, hrun.f⟩

theorem manage_rearms {r : T} {curTime : ℕ} (hnodup : q.pending.Nodup)
    (hr : r ∈ expired q.expire curTime q.pending) (hperiod : q.info.period r ≠ 0)
    (hcalls : ∀ t, ∀ request ∈ calls t, r ≠ request.timer) :
    q.Rearms (q.manage curTime calls).1 r := by
  unfold manage
  dsimp only
  rw [if_neg (List.ne_nil_of_mem hr)]
  have hrun := runAll_rearms (nodup_expired hnodup curTime) hr (q.breakAt_running curTime r hr)
    hperiod hcalls
  exact ⟨hrun.expire, hrun.state, hrun.period, hrun.f⟩

end Queue

end SoftwareSwitches.Timer
