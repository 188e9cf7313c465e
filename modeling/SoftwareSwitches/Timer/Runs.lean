import SoftwareSwitches.Lib.Execution
import SoftwareSwitches.Timer.Manage

/-!
# Whole runs of an lcore's timers

The lcore calls the timer API and, in its main loop, `rte_timer_manage`, in any order and
with any callbacks.  No expired timer is skipped, none is called early or twice, and a
periodic timer keeps to its schedule.
-/

namespace SoftwareSwitches.Timer

open Lib.LinkedList Lib.Execution

inductive Event (T C : Type*)
  | call (request : Request T C)
  | manage (curTime : ℕ) (calls : T → List (Request T C)) (rands : T → ℕ)

variable {T C : Type*}

def Event.Legal : Event T C → Prop
  | .call request => request.Legal
  | .manage curTime calls _ => curTime < 2 ^ 63 ∧ ∀ t, ∀ request ∈ calls t, request.Legal

def Event.Names (tim : T) : Event T C → Prop
  | .call request => request.timer = tim
  | .manage _ calls _ => ∃ t, ∃ request ∈ calls t, request.timer = tim

def Event.poll? : Event T C → Option ℕ
  | .call _ => none
  | .manage curTime _ _ => some curTime

variable [DecidableEq T]

def step [Fintype T] (s : Timers T C) : Event T C → Timers T C × List (T × Option C)
  | .call request => (serve s request, [])
  | .manage curTime calls rands => rteTimerManage s curTime calls rands

def Queue.step (q : Queue T C) : Event T C → Queue T C × List (T × Option C)
  | .call request => (q.serve request, [])
  | .manage curTime calls _ => q.manage curTime calls

/-- The lcore's memory when the program starts: `priv_timer` is static and
`rte_timer_init` has been called for each timer. -/
structure Initial (s : Timers T C) : Prop where
  head : ∀ i, s.list.slNext none i = none
  headExpire : s.list.headExpire = 0
  currSkiplistDepth : s.list.currSkiplistDepth = 0
  state : ∀ t, s.info.state t = .stop

def Timers.queue (s : Timers T C) : Queue T C := ⟨[], s.list.expire, s.info⟩

def twoTimers : Timers Bool ℕ :=
  ⟨SkipList.empty (fun _ => 0), ⟨fun _ => .stop, fun _ => 0, fun _ => none, false, none⟩⟩

theorem initial_twoTimers : Initial twoTimers where
  head _ := rfl
  headExpire := rfl
  currSkiplistDepth := rfl
  state _ := rfl

/-- A periodic timer, and one armed later that expires first; its callback tries to stop
the other, which is already waiting for its turn. -/
def twoTimersEvents : List (Event Bool ℕ) :=
  [.call (.reset true 10 8 true 1 0), .call (.reset false 11 2 false 2 6),
    .manage 12 (fun _ => []) (fun _ => 0),
    .manage 20 (fun t => if t then [] else [.stop true]) (fun _ => 2)]

theorem legal_twoTimersEvents : ∀ event ∈ twoTimersEvents, event.Legal := by
  simp [twoTimersEvents, Event.Legal, Request.Legal]

section Runs

variable {s : Timers T C} {q : Queue T C}

omit [DecidableEq T] in
theorem Initial.refines (h : Initial s) : Refines s s.queue := by
  have hlist : Represents s.list (fun _ => []) := by
    refine ⟨fun i _ => h.head i, ?_, List.Pairwise.nil, List.nodup_nil, ?_, ?_, h.headExpire⟩
    · exact fun _ => List.Sublist.refl _
    · intro i
      simp [h.currSkiplistDepth]
    · rw [h.currSkiplistDepth]
      exact Nat.zero_le _
  refine ⟨⟨_, hlist, rfl⟩, rfl, rfl, ?_, ?_⟩
  · intro t ht
    cases ht
  · intro t ht
    have hstop : s.queue.info.state t = .stop := h.state t
    rw [hstop] at ht
    simp at ht

omit [DecidableEq T] in
theorem Initial.settled (h : Initial s) : s.queue.Settled [] := by
  have hstop : ∀ t, s.queue.info.state t = .stop := h.state
  refine ⟨List.nodup_nil, ?_, ?_, ?_⟩
  all_goals
    intro t
    rw [hstop t]
    simp [Timers.queue]

theorem Queue.Settled.step (h : q.Settled []) (event : Event T C) :
    (q.step event).1.Settled [] := by
  cases event with
  | call request => exact h.serve request
  | manage curTime calls rands => exact h.manage curTime

variable [Fintype T]

theorem Refines.step (h : Refines s q) {event : Event T C} (hlegal : event.Legal) :
    Refines (step s event).1 (q.step event).1 ∧ (Timer.step s event).2 = (q.step event).2 := by
  cases event with
  | call request => exact ⟨h.serve hlegal, rfl⟩
  | manage curTime calls rands => exact h.manage hlegal.1 hlegal.2 rands

theorem Initial.run (h : Initial s) {events : List (Event T C)}
    (hlegal : ∀ event ∈ events, event.Legal) :
    Refines (runOut step s events).1 (runOut Queue.step s.queue events).1 ∧
      (runOut Timer.step s events).2 = (runOut Queue.step s.queue events).2 ∧
      (runOut Queue.step s.queue events).1.Settled [] := by
  have hsettled : (runOut Queue.step s.queue events).1.Settled [] :=
    runOut_invariant (P := fun q : Queue T C => q.Settled [])
      (fun q event _ hq => hq.step event) h.settled
  have hstep : ∀ (s : Timers T C) (q : Queue T C) (event : Event T C), event ∈ events →
      Refines s q →
      Refines (Timer.step s event).1 (q.step event).1 ∧
        (Timer.step s event).2 = (q.step event).2 :=
    fun s q event hmem h => h.step (hlegal event hmem)
  obtain ⟨hrefines, hlog⟩ := runOut_simulation hstep h.refines
  exact ⟨hrefines, hlog, hsettled⟩

/-- In every run the skip list stands for the queue: its lowest level holds the `PENDING`
timers in the order of expiry, no timer is left `RUNNING` or in `CONFIG`, and the same
callbacks have been made. -/
theorem run_refines_queue (s : Timers T C) (hinit : Initial s) (events : List (Event T C))
    (hlegal : ∀ event ∈ events, event.Legal) :
    let s' := (runOut step s events).1
    let q := (runOut Queue.step s.queue events).1
    (runOut step s events).2 = (runOut Queue.step s.queue events).2 ∧
      (∃ L, Represents s'.list L ∧ L 0 = q.pending) ∧ s'.list.expire = q.expire ∧
      s'.info = q.info ∧ (∀ t, t ∈ q.pending ↔ s'.info.state t = .pending) ∧
      ∀ t, s'.info.state t = .stop ∨ s'.info.state t = .pending := by
  obtain ⟨hrefines, hlog, hsettled⟩ := hinit.run hlegal
  refine ⟨hlog, hrefines.list, hrefines.expire, hrefines.info, ?_, ?_⟩
  · rw [hrefines.info]
    exact hsettled.pending
  · intro t
    rw [hrefines.info]
    cases hstate : (runOut Queue.step s.queue events).1.info.state t with
    | stop => exact Or.inl rfl
    | pending => exact Or.inr rfl
    | running => exact absurd (hsettled.running t hstate) (by simp)
    | config => exact absurd hstate (hsettled.config t)

theorem run_refines_queue_twoTimers :
    (runOut Queue.step twoTimers.queue twoTimersEvents).2 = [(false, some 2), (true, some 1)] := by
  have hrun := run_refines_queue twoTimers initial_twoTimers twoTimersEvents legal_twoTimersEvents
  rw [← hrun.1]
  decide +kernel

omit [Fintype T] [DecidableEq T] in
theorem mem_expired {expire : T → ℕ} {l : List T}
    (hl : l.Pairwise (fun a b => expire a ≤ expire b)) {curTime : ℕ} {t : T} :
    t ∈ expired expire curTime l ↔ t ∈ l ∧ expire t ≤ curTime := by
  rw [expired, ← (initial_of_sorted hl curTime).filter_eq, List.mem_filter]
  simp

omit [Fintype T] [DecidableEq T] in
theorem Refines.sorted (h : Refines s q) :
    q.pending.Pairwise (fun a b => q.expire a ≤ q.expire b) := by
  obtain ⟨L, hL, hzero⟩ := h.list
  rw [← hzero, ← h.expire]
  exact hL.sorted

/-- In every state a run can reach, `rte_timer_manage` calls the `PENDING` timers whose
time has come, each once and in the order of expiry, with the callback each was last given,
whatever the callbacks do to their own and to other timers. -/
theorem manage_calls_due (s : Timers T C) (hinit : Initial s) (events : List (Event T C))
    (hlegal : ∀ event ∈ events, event.Legal) (curTime : ℕ) (htime : curTime < 2 ^ 63)
    (calls : T → List (Request T C)) (hcalls : ∀ t, ∀ request ∈ calls t, request.Legal)
    (rands : T → ℕ) :
    let s' := (runOut step s events).1
    ∃ due : List T,
      (rteTimerManage s' curTime calls rands).2 = due.map (fun t => (t, s'.info.f t)) ∧
        due.Nodup ∧ due.Pairwise (fun a b => s'.list.expire a ≤ s'.list.expire b) ∧
        ∀ t, t ∈ due ↔ s'.info.state t = .pending ∧ s'.list.expire t ≤ curTime := by
  intro s'
  obtain ⟨hrefines, -, hsettled⟩ := hinit.run hlegal
  obtain ⟨-, hlog⟩ := hrefines.manage htime hcalls rands
  have hsorted := hrefines.sorted
  rw [Queue.manage_log hsettled.nodup] at hlog
  rw [← hrefines.info, ← hrefines.expire] at hlog
  refine ⟨_, hlog, ?_, ?_, ?_⟩
  · exact hsettled.nodup.sublist (List.takeWhile_sublist _)
  · rw [hrefines.expire]
    exact hsorted.sublist (List.takeWhile_sublist _)
  · intro t
    rw [hrefines.expire, mem_expired hsorted, hsettled.pending t, ← hrefines.info]

theorem manage_calls_due_twoTimers :
    ∃ due : List Bool,
      (rteTimerManage (runOut step twoTimers (twoTimersEvents.take 3)).1 20
        (fun t => if t then [] else [.stop true]) (fun _ => 2)).2 =
        due.map (fun t => (t, if t then some 1 else some 2)) ∧ due.Nodup := by
  have hlegal : ∀ event ∈ twoTimersEvents.take 3, event.Legal :=
    fun event hmem => legal_twoTimersEvents event (List.mem_of_mem_take hmem)
  obtain ⟨due, hlog, hnodup, -⟩ := manage_calls_due twoTimers initial_twoTimers _ hlegal 20
    (by decide) (fun t => if t then [] else [.stop true]) (by simp [Request.Legal]) (fun _ => 2)
  have hf : ∀ t, (runOut step twoTimers (twoTimersEvents.take 3)).1.info.f t =
      if t then some 1 else some 2 := by decide +kernel
  refine ⟨due, ?_, hnodup⟩
  simp only [hlog, hf]

/-! ## Periodic timers -/

/-- How many times a timer armed at `start` has been called after a poll at time `poll`, if
it was `k` times before: at most once more, and not before its time. -/
def fires (start period k poll : ℕ) : ℕ :=
  if start + (k + 1) * period ≤ poll then k + 1 else k

omit [Fintype T] [DecidableEq T] in
theorem filterMap_poll_cons (event : Event T C) (events : List (Event T C)) :
    (event :: events).filterMap Event.poll? =
      event.poll?.toList ++ events.filterMap Event.poll? := by
  cases event <;> rfl

theorem le_foldl_fires (start period k : ℕ) (polls : List ℕ) :
    k ≤ polls.foldl (fires start period) k := by
  induction polls generalizing k with
  | nil => exact le_rfl
  | cons poll polls ih =>
      have hstep : k ≤ fires start period k poll := by
        unfold fires
        split_ifs <;> omega
      exact hstep.trans (ih _)

theorem foldl_fires_le {start period k last : ℕ} {polls : List ℕ}
    (hsorted : (last :: polls).Pairwise (· ≤ ·)) (hk : start + k * period ≤ last) :
    start + polls.foldl (fires start period) k * period ≤ polls.getLastD last := by
  induction polls generalizing k last with
  | nil => exact hk
  | cons poll polls ih =>
      obtain ⟨hle, hrest⟩ := List.pairwise_cons.mp hsorted
      have hpoll := hle poll (by simp)
      rw [List.foldl_cons, List.getLastD_cons]
      apply ih hrest
      unfold fires
      split_ifs with hfire
      · exact hfire
      · omega

theorem lt_foldl_fires {start period k last : ℕ} {polls : List ℕ}
    (hchain : (last :: polls).IsChain (fun a b => b ≤ a + period))
    (hk : last < start + (k + 1) * period) :
    polls.getLastD last < start + (polls.foldl (fires start period) k + 1) * period := by
  induction polls generalizing k last with
  | nil => exact hk
  | cons poll polls ih =>
      obtain ⟨hnext, hrest⟩ := List.isChain_cons_cons.mp hchain
      rw [List.foldl_cons, List.getLastD_cons]
      apply ih hrest
      unfold fires
      split_ifs with hfire
      · rw [Nat.succ_mul (k + 1)]
        omega
      · omega

structure Armed (q : Queue T C) (tim : T) (start period : ℕ) (fct : C) (k : ℕ) : Prop where
  state : q.info.state tim = .pending
  expire : q.expire tim = start + (k + 1) * period
  period : q.info.period tim = period
  f : q.info.f tim = some fct

section Schedule

variable {tim : T} {start period k : ℕ} {fct : C} {calls : T → List (Request T C)}

omit [Fintype T] [DecidableEq T] in
theorem Armed.of_keeps (h : Armed q tim start period fct k) {q' : Queue T C}
    (hkeeps : q.Keeps q' tim) : Armed q' tim start period fct k where
  state := hkeeps.state.trans h.state
  expire := hkeeps.expire.trans h.expire
  period := hkeeps.period.trans h.period
  f := hkeeps.f.trans h.f

omit [Fintype T] in
theorem Armed.manage (h : Armed q tim start period fct k) (hsettled : q.Settled [])
    (hsorted : q.pending.Pairwise (fun a b => q.expire a ≤ q.expire b)) (hpos : 0 < period)
    (hperiod : period < 2 ^ 63) {curTime : ℕ} (htime : curTime < 2 ^ 63)
    (hcalls : ∀ t, ∀ request ∈ calls t, tim ≠ request.timer) :
    Armed (q.manage curTime calls).1 tim start period fct (fires start period k curTime) ∧
      (q.manage curTime calls).2.filter (fun call => call.1 = tim) =
        List.replicate (fires start period k curTime - k) (tim, some fct) := by
  have hmem : tim ∈ expired q.expire curTime q.pending ↔
      start + (k + 1) * period ≤ curTime := by
    rw [mem_expired hsorted, hsettled.pending tim, h.expire]
    exact and_iff_right h.state
  rw [Queue.manage_log_filter hsettled.nodup, h.f]
  simp only [hmem, fires]
  split_ifs with hfire
  · have hrearms : q.Rearms (q.manage curTime calls).1 tim := by
      apply Queue.manage_rearms hsettled.nodup (hmem.mpr hfire) _ hcalls
      rw [h.period]
      omega
    have hnext : (q.expire tim + q.info.period tim) % 2 ^ 64 =
        start + (k + 1 + 1) * period := by
      rw [h.expire, h.period, Nat.mod_eq_of_lt (by omega), Nat.succ_mul (k + 1)]
      omega
    refine ⟨⟨hrearms.state, hrearms.expire.trans hnext, ?_, ?_⟩, by simp⟩
    · exact hrearms.period.trans h.period
    · exact hrearms.f.trans h.f
  · have hdue : tim ∉ expired q.expire curTime q.pending := fun hmem' => hfire (hmem.mp hmem')
    exact ⟨h.of_keeps (Queue.manage_keeps hdue hcalls), by simp⟩

omit [Fintype T] in
theorem Armed.step (h : Armed q tim start period fct k) (hsettled : q.Settled [])
    (hsorted : q.pending.Pairwise (fun a b => q.expire a ≤ q.expire b)) (hpos : 0 < period)
    (hperiod : period < 2 ^ 63) {event : Event T C} (hlegal : event.Legal)
    (hnames : ¬event.Names tim) :
    Armed (q.step event).1 tim start period fct
        (event.poll?.toList.foldl (fires start period) k) ∧
      (q.step event).2.filter (fun call => call.1 = tim) =
        List.replicate (event.poll?.toList.foldl (fires start period) k - k) (tim, some fct) := by
  cases event with
  | call request =>
      have hne : tim ≠ request.timer := fun heq => hnames heq.symm
      have hspares : q.Spares [request] tim := by
        left
        simpa using hne
      simpa [Event.poll?, Queue.step] using h.of_keeps (Queue.serve_keeps hspares)
  | manage curTime calls rands =>
      apply h.manage hsettled hsorted hpos hperiod hlegal.1
      intro t request hmem heq
      exact hnames ⟨t, request, hmem, heq.symm⟩

theorem Armed.run (h : Armed q tim start period fct k) (hrefines : Refines s q)
    (hsettled : q.Settled []) (hpos : 0 < period) (hperiod : period < 2 ^ 63)
    {events : List (Event T C)} (hlegal : ∀ event ∈ events, event.Legal)
    (hnames : ∀ event ∈ events, ¬event.Names tim) :
    (runOut Timer.step s events).2.filter (fun call => call.1 = tim) =
      List.replicate ((events.filterMap Event.poll?).foldl (fires start period) k - k)
        (tim, some fct) := by
  induction events generalizing s q k with
  | nil => simp [runOut]
  | cons event events ih =>
      obtain ⟨harmed, hcalls⟩ := h.step hsettled hrefines.sorted hpos hperiod
        (hlegal event (by simp)) (hnames event (by simp))
      obtain ⟨hnext, hlog⟩ := hrefines.step (hlegal event (by simp))
      have hrest := ih harmed hnext (hsettled.step event)
        (fun other hmem => hlegal other (List.mem_cons_of_mem _ hmem))
        (fun other hmem => hnames other (List.mem_cons_of_mem _ hmem))
      simp only [runOut, List.filter_append]
      rw [hrest, hlog, hcalls, ← List.replicate_add, filterMap_poll_cons, List.foldl_append]
      have hle := le_foldl_fires start period k event.poll?.toList
      have hle' := le_foldl_fires start period
        (event.poll?.toList.foldl (fires start period) k) (events.filterMap Event.poll?)
      congr 1
      omega

end Schedule

omit [Fintype T] in
theorem Queue.Settled.reset_armed (h : q.Settled []) {tim : T} {start period : ℕ} {fct : C}
    (hstart : start < 2 ^ 63) (hperiod : period < 2 ^ 63) (rand : ℕ) :
    Armed (q.serve (.reset tim start period true fct rand)) tim start period fct 0 := by
  have hfree : timerSetConfigState q.info tim =
      some (q.info.state tim, q.info.setState tim .config) := by
    unfold timerSetConfigState
    rw [if_neg, if_neg (h.config tim)]
    · rfl
    · rintro ⟨hrunning, -⟩
      exact absurd (h.running tim hrunning) (by simp)
  constructor
  case expire =>
    simp only [Queue.serve, Queue.reset, hfree, Option.getD_some, Function.update_self]
    omega
  all_goals simp [Queue.serve, Queue.reset, hfree, Info.arm]

/-- A periodic timer that is armed in any state a run can reach and then left alone is
called exactly as `fires` counts over the times of the passes: at most once in a pass, never
before its time, and behind a late pass by as many periods as were missed. -/
theorem periodic_on_schedule (s : Timers T C) (hinit : Initial s) (before after : List (Event T C))
    (tim : T) (start period : ℕ) (fct : C) (rand : ℕ) (hpos : 0 < period)
    (hbefore : ∀ event ∈ before, event.Legal) (hafter : ∀ event ∈ after, event.Legal)
    (hreset : (Request.reset tim start period true fct rand).Legal)
    (hnames : ∀ event ∈ after, ¬event.Names tim) :
    let s' := (runOut step s
      (before ++ [.call (.reset tim start period true fct rand)])).1
    (runOut step s' after).2.filter (fun call => call.1 = tim) =
      List.replicate ((after.filterMap Event.poll?).foldl (fires start period) 0)
        (tim, some fct) := by
  intro s'
  obtain ⟨hrefines, -, hsettled⟩ := hinit.run hbefore
  have hnext : Refines s' ((runOut Queue.step s.queue before).1.serve
      (.reset tim start period true fct rand)) := by
    show Refines (runOut step s _).1 _
    rw [runOut_append]
    exact hrefines.serve hreset
  have harmed : Armed ((runOut Queue.step s.queue before).1.serve
      (.reset tim start period true fct rand)) tim start period fct 0 :=
    hsettled.reset_armed hreset.2.1 hreset.2.2 rand
  have hrun := harmed.run hnext (hsettled.serve _) hpos hreset.2.2 hafter hnames
  simpa using hrun

theorem periodic_on_schedule_twoTimers :
    let s' := (runOut step twoTimers ([.call (.stop true)] ++
      [.call (.reset false 100 10 true 7 0)])).1
    ((runOut step s' [.manage 109 (fun _ => []) (fun _ => 0), .manage 125 (fun _ => [.stop true])
      (fun _ => 0), .manage 126 (fun _ => []) (fun _ => 0)]).2.filter
        (fun call => call.1 = false)) = [(false, some 7), (false, some 7)] := by
  intro s'
  have hrun := periodic_on_schedule twoTimers initial_twoTimers [.call (.stop true)]
    [.manage 109 (fun _ => []) (fun _ => 0), .manage 125 (fun _ => [.stop true]) (fun _ => 0),
      .manage 126 (fun _ => []) (fun _ => 0)] false 100 10 7 0 (by decide)
    (by simp [Event.Legal, Request.Legal]) (by simp [Event.Legal, Request.Legal])
    (by simp [Request.Legal]) (by simp [Event.Names, Request.timer])
  exact hrun

end Runs

end SoftwareSwitches.Timer
