import SoftwareSwitches.Timer.Queue

/-!
# The timers of an lcore

`rte_timer_reset`, `rte_timer_stop` and `rte_timer_manage`, called on the lcore whose
timers they are.  The code on the skip list refines the queue.
-/

namespace SoftwareSwitches.Timer

open Lib.LinkedList Lib.SkipList

structure Timers (T C : Type*) where
  list : SkipList T
  info : Info T C

variable {T C : Type*} [DecidableEq T]

section Code

variable [Fintype T]

def timerReset (s : Timers T C) (tim : T) (expire period : ℕ) (fct : Option C) (rand : ℕ) :
    Option (Timers T C) :=
  match timerSetConfigState s.info tim with
  | none => none
  | some (prev, info) =>
    let list := if prev = .pending then timerDel s.list tim else s.list
    let list := { list with expire := Function.update list.expire tim expire }
    some ⟨timerAdd list tim rand, (info.noteUpdate prev).arm tim period fct⟩

def rteTimerReset (s : Timers T C) (tim : T) (curTime ticks : ℕ) (periodical : Bool) (fct : C)
    (rand : ℕ) : Option (Timers T C) :=
  timerReset s tim ((curTime + ticks) % 2 ^ 64) (if periodical then ticks else 0) (some fct) rand

def rteTimerStop (s : Timers T C) (tim : T) : Option (Timers T C) :=
  match timerSetConfigState s.info tim with
  | none => none
  | some (prev, info) =>
    let list := if prev = .pending then timerDel s.list tim else s.list
    some ⟨list, (info.noteUpdate prev).setState tim .stop⟩

/-- The caller drops the result. -/
def serve (s : Timers T C) : Request T C → Timers T C
  | .reset tim curTime ticks periodical fct rand =>
    (rteTimerReset s tim curTime ticks periodical fct rand).getD s
  | .stop tim => (rteTimerStop s tim).getD s

/-- The loop that moves the run-list from `PENDING` to `RUNNING`; `pprev` is the timer
whose pointer leads to `tim`, `none` for the variable `run_first_tim`, whose value is
`first`. -/
def setRunning : ℕ → Timers T C → Option T → Option T → Option T → Timers T C × Option T
  | 0, s, first, _, _ => (s, first)
  | _, s, first, _, none => (s, first)
  | fuel + 1, s, first, pprev, some tim =>
    let nextTim := s.list.slNext (some tim) 0
    if s.info.state tim = .pending then
      setRunning fuel { s with info := s.info.setState tim .running } first (some tim) nextTim
    else
      match pprev with
      | none => setRunning fuel s nextTim none nextTim
      | some p =>
        setRunning fuel
          { s with list := { s.list with
              slNext := fun n i => if n = some p ∧ i = 0 then nextTim else s.list.slNext n i } }
          first (some p) nextTim

/-- One pass of the loop over the run-list; `calls` is what the callbacks do with timers,
`rands` the levels drawn for periodic timers. -/
def runCallback (calls : T → List (Request T C)) (rands : T → ℕ) (s : Timers T C) (tim : T) :
    Timers T C :=
  let s := { s with info := s.info.start tim }
  let s := (calls tim).foldl serve s
  if s.info.updated then s
  else if s.info.period tim = 0 then { s with info := s.info.setState tim .stop }
  else
    let s := { s with info := s.info.setState tim .pending }
    (timerReset s tim ((s.list.expire tim + s.info.period tim) % 2 ^ 64)
      (s.info.period tim) (s.info.f tim) (rands tim)).getD s

def runCallbacks (calls : T → List (Request T C)) (rands : T → ℕ) :
    ℕ → Timers T C → Option T → Timers T C × List (T × Option C)
  | 0, s, _ => (s, [])
  | _, s, none => (s, [])
  | fuel + 1, s, some tim =>
    let nextTim := s.list.slNext (some tim) 0
    let called := (tim, s.info.f tim)
    let (s, log) := runCallbacks calls rands fuel (runCallback calls rands s tim) nextTim
    (s, called :: log)

def rteTimerManage (s : Timers T C) (curTime : ℕ) (calls : T → List (Request T C))
    (rands : T → ℕ) : Timers T C × List (T × Option C) :=
  match s.list.slNext none 0 with
  | none => (s, [])
  | some tim =>
    -- the quick check outside the lock, then the one inside
    if curTime < s.list.headExpire then (s, [])
    else if curTime < s.list.expire tim then (s, [])
    else
      let s := { s with list := breakList s.list curTime }
      let (s, runFirstTim) := setRunning (Fintype.card T) s (some tim) none (some tim)
      let (s, log) := runCallbacks calls rands (Fintype.card T) s runFirstTim
      ({ s with info := { s.info with runningTim := none } }, log)

end Code

/-! ## Single calls refine the queue -/

/-- The memory holds the queue, and the clock is far from wrapping around. -/
structure Refines (s : Timers T C) (q : Queue T C) : Prop where
  list : ∃ L, Represents s.list L ∧ L 0 = q.pending
  expire : s.list.expire = q.expire
  info : s.info = q.info
  pending : ∀ t ∈ q.pending, q.info.state t = .pending
  bounded : ∀ t, q.info.state t = .pending ∨ q.info.state t = .running →
    0 < q.expire t ∧ q.expire t < 2 ^ 64 ∧ q.info.period t < 2 ^ 63

/-- The clock, read in cycles, stays below `2 ^ 63`. -/
def Request.Legal : Request T C → Prop
  | .reset _ curTime ticks _ _ _ => 0 < curTime ∧ curTime < 2 ^ 63 ∧ ticks < 2 ^ 63
  | .stop _ => True

omit [DecidableEq T] in
theorem Represents.congr_expire {m : SkipList T} {L : ℕ → List T} (h : Represents m L)
    {expire : T → ℕ} (heq : ∀ t ∈ L 0, expire t = m.expire t) :
    Represents { m with expire := expire } L := by
  refine ⟨h.linked, h.nested, ?_, h.nodup, h.depth, h.depth_le, ?_⟩
  · refine h.sorted.imp_of_mem ?_
    intro a b ha hb hab
    simp only [heq a ha, heq b hb]
    exact hab
  · show m.headExpire = ((L 0).head?.map expire).getD 0
    rw [h.headExpire]
    cases hL : (L 0).head? with
    | none => rfl
    | some t =>
        have ht : t ∈ L 0 := List.mem_of_head? hL
        simp [heq t ht]

theorem Represents.update_expire {m : SkipList T} {L : ℕ → List T} (h : Represents m L)
    {tim : T} (ht : tim ∉ L 0) (expire : ℕ) :
    Represents { m with expire := Function.update m.expire tim expire } L := by
  apply h.congr_expire
  intro t hmem
  have hne : t ≠ tim := fun heq => ht (heq ▸ hmem)
  exact Function.update_of_ne hne _ _

section Refinement

variable [Fintype T] {s s' : Timers T C} {q q' : Queue T C}

theorem Refines.delete (h : Refines s q) (tim : T) :
    ∃ L, Represents (if q.info.state tim = .pending then timerDel s.list tim else s.list) L ∧
      L 0 = (if q.info.state tim = .pending then q.pending.erase tim else q.pending) ∧
      tim ∉ L 0 := by
  obtain ⟨L, hL, hpending⟩ := h.list
  by_cases hstate : q.info.state tim = .pending
  · obtain ⟨hpos, hlt, -⟩ := h.bounded tim (Or.inl hstate)
    rw [← h.expire] at hpos hlt
    refine ⟨fun i => (L i).erase tim, ?_, ?_, ?_⟩
    · rw [if_pos hstate]
      exact hL.timerDel hpos hlt
    · rw [if_pos hstate]
      show (L 0).erase tim = q.pending.erase tim
      rw [hpending]
    · exact hL.nodup.not_mem_erase
  · refine ⟨L, ?_, ?_, ?_⟩
    · rw [if_neg hstate]
      exact hL
    · rw [if_neg hstate, hpending]
    · rw [hpending]
      intro hmem
      exact hstate (h.pending tim hmem)

theorem expire_delete (s : Timers T C) (tim : T) (c : Prop) [Decidable c] :
    (if c then timerDel s.list tim else s.list).expire = s.list.expire := by
  split_ifs <;> rfl

theorem Refines.reset (h : Refines s q) (tim : T) {expire period : ℕ} (hpos : 0 < expire)
    (hlt : expire < 2 ^ 64) (hperiod : period < 2 ^ 63) (fct : Option C) (rand : ℕ) :
    Refines ((timerReset s tim expire period fct rand).getD s)
      ((q.reset tim expire period fct).getD q) := by
  unfold timerReset Queue.reset
  rw [h.info]
  cases hconfig : timerSetConfigState q.info tim with
  | none => exact h
  | some result =>
      obtain ⟨prev, info⟩ := result
      obtain ⟨rfl, rfl, -⟩ := timerSetConfigState_eq_some hconfig
      obtain ⟨L, hL, hzero, hfresh⟩ := h.delete tim
      simp only [Option.getD_some]
      have hexpire := expire_delete s tim (q.info.state tim = .pending)
      refine ⟨⟨_, (hL.update_expire hfresh expire).timerAdd hfresh rand, ?_⟩, ?_, rfl, ?_, ?_⟩
      · simp only [Nat.zero_le, if_true]
        rw [hzero, hexpire, h.expire]
      · show Function.update _ tim expire = Function.update q.expire tim expire
        rw [hexpire, h.expire]
      · intro t ht
        simp only [Info.arm, Info.noteUpdate_state, Info.setState]
        rcases mem_place.mp ht with rfl | hmem
        · simp
        · by_cases hne : t = tim
          · simp [hne]
          · rw [Function.update_of_ne hne, Function.update_of_ne hne]
            exact h.pending t (mem_of_mem_delete hmem)
      · intro t ht
        by_cases hne : t = tim
        · subst hne
          simpa [Info.arm] using ⟨hpos, hlt, hperiod⟩
        · simp only [Info.arm, Info.noteUpdate_state, Info.noteUpdate_period, Info.setState,
            Function.update_of_ne hne] at ht ⊢
          exact h.bounded t ht

theorem Refines.stop (h : Refines s q) (tim : T) :
    Refines ((rteTimerStop s tim).getD s) ((q.stop tim).getD q) := by
  unfold rteTimerStop Queue.stop
  rw [h.info]
  cases hconfig : timerSetConfigState q.info tim with
  | none => exact h
  | some result =>
      obtain ⟨prev, info⟩ := result
      obtain ⟨rfl, rfl, -⟩ := timerSetConfigState_eq_some hconfig
      obtain ⟨L, hL, hzero, hfresh⟩ := h.delete tim
      simp only [Option.getD_some]
      refine ⟨⟨L, hL, hzero⟩, ?_, rfl, ?_, ?_⟩
      · rw [expire_delete]
        exact h.expire
      · intro t ht
        have hne : t ≠ tim := by
          intro heq
          subst heq
          rw [hzero] at hfresh
          exact hfresh ht
        simp only [Info.setState, Info.noteUpdate_state, Function.update_of_ne hne]
        exact h.pending t (mem_of_mem_delete ht)
      · intro t ht
        by_cases hne : t = tim
        · subst hne
          simp [Info.setState] at ht
        · simp only [Info.setState, Info.noteUpdate_state, Info.noteUpdate_period,
            Function.update_of_ne hne] at ht ⊢
          exact h.bounded t ht

theorem Refines.serve (h : Refines s q) {request : Request T C} (hlegal : request.Legal) :
    Refines (serve s request) (q.serve request) := by
  cases request with
  | reset tim curTime ticks periodical fct rand =>
      obtain ⟨hpos, hlt, hticks⟩ := hlegal
      have hmod : (curTime + ticks) % 2 ^ 64 = curTime + ticks := by
        apply Nat.mod_eq_of_lt
        omega
      apply h.reset
      · omega
      · omega
      · split_ifs <;> omega
  | stop tim => exact h.stop tim

/-! ## Timers of the run-list are left alone -/

theorem Refines.delete_next (h : Refines s q) {r : T} (hr : r ∉ q.pending) (tim : T) :
    (if q.info.state tim = .pending then timerDel s.list tim else s.list).slNext (some r) 0 =
      s.list.slNext (some r) 0 := by
  obtain ⟨L, hL, hpending⟩ := h.list
  split_ifs
  · apply hL.timerDel_other
    rw [hpending]
    exact hr
  · rfl

omit [DecidableEq T] [Fintype T] in
theorem Refines.not_mem_of_running (h : Refines s q) {r : T} (hr : q.info.state r = .running) :
    r ∉ q.pending := by
  intro hmem
  have hpending := h.pending r hmem
  rw [hr] at hpending
  cases hpending

theorem Refines.reset_next (h : Refines s q) {tim r : T} (hr : q.info.state r = .running)
    (hother : r ≠ tim ∨ q.info.runningTim ≠ some r) (expire period : ℕ) (fct : Option C)
    (rand : ℕ) :
    ((timerReset s tim expire period fct rand).getD s).list.slNext (some r) 0 =
      s.list.slNext (some r) 0 := by
  unfold timerReset
  rw [h.info]
  cases hconfig : timerSetConfigState q.info tim with
  | none => rfl
  | some result =>
      obtain ⟨prev, info⟩ := result
      obtain ⟨rfl, rfl, hown⟩ := timerSetConfigState_eq_some hconfig
      have hne : r ≠ tim := by
        rcases hother with hne | hrunning
        · exact hne
        · intro heq
          subst heq
          exact hrunning (hown hr)
      have hmem := h.not_mem_of_running hr
      obtain ⟨L, hL, hzero, hfresh⟩ := h.delete tim
      have houtside : r ∉ L 0 := by
        rw [hzero]
        exact fun hr' => hmem (mem_of_mem_delete hr')
      simp only [Option.getD_some]
      rw [(hL.update_expire hfresh expire).timerAdd_other houtside hne]
      exact h.delete_next hmem tim

theorem Refines.serve_next (h : Refines s q) {r : T} (hr : q.info.state r = .running)
    (hother : q.info.runningTim ≠ some r) (request : Request T C) :
    (Timer.serve s request).list.slNext (some r) 0 = s.list.slNext (some r) 0 := by
  cases request with
  | reset tim curTime ticks periodical fct rand => exact h.reset_next hr (Or.inr hother) _ _ _ _
  | stop tim =>
      simp only [Timer.serve, rteTimerStop]
      rw [h.info]
      cases hconfig : timerSetConfigState q.info tim with
      | none => rfl
      | some result =>
          obtain ⟨prev, info⟩ := result
          obtain ⟨rfl, rfl, -⟩ := timerSetConfigState_eq_some hconfig
          exact h.delete_next (h.not_mem_of_running hr) tim

theorem Refines.serve_all (h : Refines s q) (requests : List (Request T C))
    (hlegal : ∀ request ∈ requests, request.Legal) :
    Refines (requests.foldl Timer.serve s) (requests.foldl Queue.serve q) := by
  induction requests generalizing s q with
  | nil => exact h
  | cons request requests ih =>
      simp only [List.foldl_cons]
      apply ih (h.serve (hlegal request (by simp)))
      intro other hmem
      exact hlegal other (List.mem_cons_of_mem _ hmem)

theorem Refines.serve_all_next (h : Refines s q) {r : T} (hr : q.info.state r = .running)
    (hother : q.info.runningTim ≠ some r) (requests : List (Request T C))
    (hlegal : ∀ request ∈ requests, request.Legal) :
    (requests.foldl Timer.serve s).list.slNext (some r) 0 = s.list.slNext (some r) 0 := by
  induction requests generalizing s q with
  | nil => rfl
  | cons request requests ih =>
      have hspares : q.Spares (request :: requests) r := Or.inr ⟨hr, hother⟩
      have hkeeps := Queue.serve_keeps hspares
      simp only [List.foldl_cons]
      rw [ih (h.serve (hlegal request (by simp))) (hkeeps.state.trans hr)]
      · exact h.serve_next hr hother request
      · rw [Queue.serve_runningTim]
        exact hother
      · intro other hmem
        exact hlegal other (List.mem_cons_of_mem _ hmem)

/-! ## The loop over the run-list -/

omit [DecidableEq T] [Fintype T] in
theorem Refines.withInfo (h : Refines s q) {info : Info T C}
    (hpending : ∀ t ∈ q.pending, info.state t = .pending)
    (hactive : ∀ t, info.state t = .pending ∨ info.state t = .running →
      q.info.state t = .pending ∨ q.info.state t = .running)
    (hperiod : info.period = q.info.period) :
    Refines { s with info := info } { q with info := info } where
  list := h.list
  expire := h.expire
  info := rfl
  pending := hpending
  bounded t ht := by
    rw [hperiod]
    exact h.bounded t (hactive t ht)

omit [Fintype T] in
theorem Refines.setState (h : Refines s q) {tim : T} (hstate : q.info.state tim = .running)
    (state : TimerState) :
    Refines { s with info := s.info.setState tim state }
      { q with info := q.info.setState tim state } := by
  rw [h.info]
  apply h.withInfo
  · intro t ht
    have hne : t ≠ tim := by
      intro heq
      subst heq
      exact h.not_mem_of_running hstate ht
    simp only [Info.setState, Function.update_of_ne hne]
    exact h.pending t ht
  · intro t ht
    by_cases hne : t = tim
    · subst hne
      exact Or.inr hstate
    · simpa only [Info.setState, Function.update_of_ne hne] using ht
  · rfl

section Callback

variable {calls : T → List (Request T C)} {rands : T → ℕ} {tim : T}

omit [DecidableEq T] [Fintype T] in
theorem Refines.start (h : Refines s q) (tim : T) :
    Refines { s with info := s.info.start tim } { q with info := q.info.start tim } := by
  rw [h.info]
  exact h.withInfo h.pending (fun _ ht => ht) rfl

/-- A periodic timer that has been run is due one period after its last expiry; the sum
does not wrap. -/
theorem Refines.runCallback (h : Refines s q) (hlegal : ∀ request ∈ calls tim, request.Legal)
    (hstate : q.info.state tim = .running) (hexpire : q.expire tim < 2 ^ 63) :
    Refines (runCallback calls rands s tim) (q.runOne calls tim) := by
  have hserved := (h.start tim).serve_all (calls tim) hlegal
  have hown := Queue.callback_own hstate (calls tim)
  unfold Timer.runCallback Queue.runOne
  dsimp only
  revert hserved hown
  generalize List.foldl Timer.serve _ (calls tim) = s₁
  generalize List.foldl Queue.serve _ (calls tim) = q₁
  intro hserved hown
  rw [hserved.info]
  split_ifs with hupdated hperiod
  · exact hserved
  · have hrunning := hown.updated.mp (by simpa using hupdated)
    have hstop := hserved.setState hrunning .stop
    rwa [hserved.info] at hstop
  · have hrunning := hown.updated.mp (by simpa using hupdated)
    have hsame := (hown.untouched (by simpa using hupdated)).expire
    have hpend := hserved.setState hrunning .pending
    rw [hserved.info] at hpend
    obtain ⟨hpos, -, hp⟩ := hserved.bounded tim (Or.inr hrunning)
    have hmod : (q₁.expire tim + q₁.info.period tim) % 2 ^ 64 =
        q₁.expire tim + q₁.info.period tim := by
      apply Nat.mod_eq_of_lt
      rw [hsame]
      omega
    rw [hserved.expire]
    apply hpend.reset
    · show 0 < (q₁.expire tim + q₁.info.period tim) % 2 ^ 64
      omega
    · exact Nat.mod_lt _ (by decide)
    · exact hp

theorem Refines.runCallback_next (h : Refines s q) {r : T}
    (hlegal : ∀ request ∈ calls tim, request.Legal) (hstate : q.info.state tim = .running)
    (hr : q.info.state r = .running) (hne : r ≠ tim) :
    (Timer.runCallback calls rands s tim).list.slNext (some r) 0 =
      s.list.slNext (some r) 0 := by
  have hother : (some tim : Option T) ≠ some r := by simpa using hne.symm
  have hserved := (h.start tim).serve_all (calls tim) hlegal
  have hnext := (h.start tim).serve_all_next hr hother (calls tim) hlegal
  have hspares : Queue.Spares { q with info := q.info.start tim } (calls tim) r :=
    Or.inr ⟨hr, hother⟩
  have hrunning := (Queue.serve_all_keeps hspares).state.trans hr
  have hown := Queue.callback_own hstate (calls tim)
  unfold Timer.runCallback
  dsimp only
  revert hserved hnext hrunning hown
  generalize List.foldl Timer.serve _ (calls tim) = s₁
  generalize List.foldl Queue.serve _ (calls tim) = q₁
  intro hserved hnext hrunning hown
  rw [hserved.info]
  split_ifs with hupdated hperiod
  · exact hnext
  · exact hnext
  · have hpend := hserved.setState (hown.updated.mp (by simpa using hupdated)) .pending
    rw [hserved.info] at hpend
    rw [← hnext]
    apply hpend.reset_next _ (Or.inl hne)
    simpa [Info.setState, Function.update_of_ne hne] using hrunning

structure RunList (s : Timers T C) (q : Queue T C) (due : List T) : Prop where
  linked : ∀ tim rest, due = tim :: rest → Linked some (s.list.level 0) (some tim) rest
  nodup : due.Nodup
  running : ∀ t ∈ due, q.info.state t = .running
  expire : ∀ t ∈ due, q.expire t < 2 ^ 63

theorem RunList.tail {rest : List T} (hrun : RunList s q (tim :: rest)) (h : Refines s q)
    (hlegal : ∀ request ∈ calls tim, request.Legal) :
    RunList (Timer.runCallback calls rands s tim) (q.runOne calls tim) rest := by
  obtain ⟨hfirst, hrest⟩ := List.nodup_cons.mp hrun.nodup
  have hstate := hrun.running tim (by simp)
  have hne : ∀ r ∈ rest, r ≠ tim := fun r hr heq => hfirst (heq ▸ hr)
  have hrunning : ∀ r ∈ rest, q.info.state r = .running :=
    fun r hr => hrun.running r (List.mem_cons_of_mem _ hr)
  have hkeeps : ∀ r ∈ rest, q.Keeps (q.runOne calls tim) r :=
    fun r hr => Queue.runOne_keeps (hne r hr) (Or.inr (hrunning r hr))
  refine ⟨?_, hrest, ?_, ?_⟩
  · intro next rest' heq
    subst heq
    have hlinked := (hrun.linked tim _ rfl).2
    apply hlinked.congr
    intro n hn
    rw [← List.map_cons] at hn
    obtain ⟨r, hr, rfl⟩ := List.mem_map.mp hn
    exact h.runCallback_next hlegal hstate (hrunning r hr) (hne r hr)
  · intro r hr
    rw [(hkeeps r hr).state]
    exact hrunning r hr
  · intro r hr
    rw [(hkeeps r hr).expire]
    exact hrun.expire r (List.mem_cons_of_mem _ hr)

theorem Refines.runCallbacks (h : Refines s q) (rands : T → ℕ) {due : List T}
    (hrun : RunList s q due)
    (hlegal : ∀ t, ∀ request ∈ calls t, request.Legal) {fuel : ℕ} (hfuel : due.length ≤ fuel) :
    Refines (runCallbacks calls rands fuel s due.head?).1 (q.runAll calls due).1 ∧
      (Timer.runCallbacks calls rands fuel s due.head?).2 = (q.runAll calls due).2 := by
  induction due generalizing s q fuel with
  | nil =>
      cases fuel with
      | zero => exact ⟨h, rfl⟩
      | succ fuel => exact ⟨h, rfl⟩
  | cons tim rest ih =>
      cases fuel with
      | zero => simp at hfuel
      | succ fuel =>
          have hnext : s.list.slNext (some tim) 0 = rest.head? :=
            (hrun.linked tim rest rfl).next_eq_head?
          have hstep : Refines (Timer.runCallback calls rands s tim) (q.runOne calls tim) :=
            h.runCallback (hlegal tim) (hrun.running tim (by simp)) (hrun.expire tim (by simp))
          obtain ⟨hstate, hlog⟩ := ih hstep (hrun.tail h (hlegal tim)) (by simpa using hfuel)
          simp only [List.head?_cons, Timer.runCallbacks, Queue.runAll, hnext, h.info]
          exact ⟨hstate, by rw [hlog]⟩

end Callback

omit [Fintype T] in
theorem Info.run_cons (info : Info T C) {tim : T} {rest : List T} (htim : tim ∉ rest) :
    info.run (tim :: rest) = (info.setState tim .running).run rest := by
  unfold Info.run Info.setState
  congr 1
  funext t
  by_cases ht : t = tim
  · subst ht
    simp [htim]
  · simp [ht]

omit [Fintype T] in
theorem setRunning_eq {due : List T}
    (hlinked : ∀ tim rest, due = tim :: rest → Linked some (s.list.level 0) (some tim) rest)
    (hnodup : due.Nodup) (hpending : ∀ t ∈ due, s.info.state t = .pending) {fuel : ℕ}
    (hfuel : due.length ≤ fuel) (first pprev : Option T) :
    setRunning fuel s first pprev due.head? =
      ({ s with info := s.info.run due }, first) := by
  induction due generalizing s fuel pprev with
  | nil => cases fuel <;> simp [setRunning, Info.run]
  | cons tim rest ih =>
      cases fuel with
      | zero => simp at hfuel
      | succ fuel =>
          obtain ⟨hfirst, hrest⟩ := List.nodup_cons.mp hnodup
          have hnext : s.list.slNext (some tim) 0 = rest.head? :=
            (hlinked tim rest rfl).next_eq_head?
          simp only [List.head?_cons, setRunning, hpending tim (by simp), if_true, hnext]
          rw [ih]
          · rw [s.info.run_cons hfirst]
          · intro next rest' heq
            subst heq
            exact (hlinked tim _ rfl).2
          · exact hrest
          · intro t ht
            have hne : t ≠ tim := fun heq => hfirst (heq ▸ ht)
            simp only [Info.setState, Function.update_of_ne hne]
            exact hpending t (List.mem_cons_of_mem _ ht)
          · simpa using hfuel

theorem Refines.breakAt (h : Refines s q) (curTime : ℕ) :
    Refines ⟨breakList s.list curTime, s.info.run (expired q.expire curTime q.pending)⟩
      (q.breakAt curTime) := by
  obtain ⟨L, hL, hzero⟩ := h.list
  have hnodup : q.pending.Nodup := hzero ▸ hL.nodup
  have hparts := expired_append_remaining q.expire curTime q.pending
  rw [h.info]
  refine ⟨⟨_, hL.breakList curTime, ?_⟩, h.expire, rfl, ?_, ?_⟩
  · rw [hzero, h.expire]
    rfl
  · intro t ht
    have hmem : t ∈ q.pending := by
      rw [← hparts]
      exact List.mem_append_right _ ht
    have hnot : t ∉ expired q.expire curTime q.pending := by
      intro hexp
      rw [← hparts] at hnodup
      exact (List.nodup_append.mp hnodup).2.2 t hexp t ht rfl
    simp only [Queue.breakAt, Info.run, if_neg hnot]
    exact h.pending t hmem
  · intro t ht
    simp only [Queue.breakAt, Info.run] at ht
    split_ifs at ht with hexp
    · apply h.bounded t
      left
      apply h.pending
      rw [← hparts]
      exact List.mem_append_left _ hexp
    · exact h.bounded t ht

theorem Refines.runList (h : Refines s q) {curTime : ℕ} (htime : curTime < 2 ^ 63) :
    RunList ⟨breakList s.list curTime, s.info.run (expired q.expire curTime q.pending)⟩
      (q.breakAt curTime) (expired q.expire curTime q.pending) := by
  obtain ⟨L, hL, hzero⟩ := h.list
  refine ⟨?_, ?_, q.breakAt_running curTime, ?_⟩
  · intro tim rest heq
    apply (hL.breakList_level curTime (i := 0) (by decide)).2
    rw [h.expire, hzero]
    exact heq
  · exact Queue.nodup_expired (hzero ▸ hL.nodup) curTime
  · intro t ht
    have hle := List.mem_takeWhile_imp ht
    simp only [decide_eq_true_eq] at hle
    show q.expire t < 2 ^ 63
    omega

/-- `rte_timer_manage` does what the queue does, with the same callbacks. -/
theorem Refines.manage (h : Refines s q) {curTime : ℕ} (htime : curTime < 2 ^ 63)
    {calls : T → List (Request T C)} (hlegal : ∀ t, ∀ request ∈ calls t, request.Legal)
    (rands : T → ℕ) :
    Refines (rteTimerManage s curTime calls rands).1 (q.manage curTime calls).1 ∧
      (rteTimerManage s curTime calls rands).2 = (q.manage curTime calls).2 := by
  obtain ⟨L, hL, hzero⟩ := h.list
  have hnodup : q.pending.Nodup := hzero ▸ hL.nodup
  have hhead : s.list.slNext none 0 = q.pending.head? := by
    rw [← hzero]
    exact (hL.linked 0 (by decide)).next_eq_head?
  have hexpire := hL.headExpire
  rw [hzero, h.expire] at hexpire
  have hbreak := h.breakAt curTime
  have hrun := h.runList htime
  unfold rteTimerManage Queue.manage
  rw [hhead]
  cases hpending : q.pending with
  | nil => exact ⟨h, rfl⟩
  | cons tim rest =>
      rw [hpending] at hexpire hbreak hrun
      simp only [List.head?_cons, Option.map_some, Option.getD_some] at hexpire
      simp only [List.head?_cons, hexpire, h.expire]
      by_cases hcur : curTime < q.expire tim
      · have hnone : expired q.expire curTime (tim :: rest) = [] := by
          simp [expired, hcur]
        simp only [if_pos hcur, hnone, if_true]
        exact ⟨h, trivial⟩
      · have hsome : expired q.expire curTime (tim :: rest) =
            tim :: expired q.expire curTime rest := by
          rw [expired, List.takeWhile_cons_of_pos (by simpa using hcur)]
          rfl
        rw [hsome] at hbreak hrun
        have hlength := hrun.nodup.length_le_card
        have hdue : ∀ t ∈ tim :: expired q.expire curTime rest, s.info.state t = .pending := by
          intro t ht
          rw [h.info]
          apply h.pending
          rw [hpending]
          rw [← hsome] at ht
          exact (List.takeWhile_sublist _).subset ht
        have hset := setRunning_eq (s := ⟨Timer.breakList s.list curTime, s.info⟩)
          hrun.linked hrun.nodup hdue hlength (some tim) none
        obtain ⟨hstate, hlog⟩ := hbreak.runCallbacks rands hrun hlegal hlength
        simp only [List.head?_cons] at hset hstate hlog
        simp only [if_neg hcur, hsome, hset]
        refine ⟨?_, hlog⟩
        rw [hstate.info]
        exact hstate.withInfo hstate.pending (fun _ ht => ht) rfl

end Refinement

end SoftwareSwitches.Timer
