import SoftwareSwitches.Timer.Runs

/-!
# The reports of FloWatcher-DPDK

`main` arms one periodic timer of a second, whose callback `timer_cb` prints a line and
touches no timer, and then does nothing but call `rte_timer_manage`.  The line calls the
packets since the last line a rate per second, which is right only if the lines are a
second apart.
-/

namespace SoftwareSwitches.Reports

open Lib.Execution Timer

/-- A pass of the loop `while(1) rte_timer_manage()` that reads the time `poll`. -/
def pass (rands : ℕ → ℕ) (poll : ℕ) : Event Unit Unit :=
  .manage poll (fun _ => []) (fun _ => rands poll)

/-- `main` from `rte_timer_reset` on: `start` is the time it reads, `hz` the cycles of a
second. -/
def mainEvents (start hz rand : ℕ) (rands : ℕ → ℕ) (polls : List ℕ) : List (Event Unit Unit) :=
  .call (.reset () start hz true () rand) :: polls.map (pass rands)

def reports (s : Timers Unit Unit) (events : List (Event Unit Unit)) : ℕ :=
  (runOut step s events).2.length

section Schedule

variable {s : Timers Unit Unit} {start hz : ℕ} {polls : List ℕ}

theorem filterMap_poll_pass (rands : ℕ → ℕ) (polls : List ℕ) :
    (polls.map (pass rands)).filterMap Event.poll? = polls := by
  rw [List.filterMap_map]
  exact List.filterMap_some

theorem reports_eq_fires (hinit : Initial s) (hhz : 0 < hz) (hlt : hz < 2 ^ 63)
    (hstart : 0 < start) (hbound : ∀ time ∈ start :: polls, time < 2 ^ 63) (rand : ℕ)
    (rands : ℕ → ℕ) :
    reports s (mainEvents start hz rand rands polls) = polls.foldl (fires start hz) 0 := by
  have hfirst := hbound start (by simp)
  have harmed : Armed (s.queue.serve (.reset () start hz true () rand)) () start hz () 0 :=
    hinit.settled.reset_armed hfirst hlt rand
  have hlegal : ∀ event ∈ polls.map (pass rands), event.Legal := by
    intro event hmem
    obtain ⟨poll, hpoll, rfl⟩ := List.mem_map.mp hmem
    refine ⟨hbound poll (List.mem_cons_of_mem _ hpoll), ?_⟩
    simp
  have hnames : ∀ event ∈ polls.map (pass rands), ¬event.Names () := by
    intro event hmem
    obtain ⟨poll, -, rfl⟩ := List.mem_map.mp hmem
    simp [pass, Event.Names]
  have hrun := harmed.run (hinit.refines.serve ⟨hstart, hfirst, hlt⟩) (hinit.settled.serve _)
    hhz hlt hlegal hnames
  have hlength := congrArg List.length hrun
  simp only [filterMap_poll_pass, decide_true, List.filter_true, List.length_replicate,
    Nat.sub_zero] at hlength
  exact hlength

end Schedule

/-- No line is early: after a pass at time `t` there are at most `(t - start) / hz` lines.
With passes at most a second apart there are exactly so many. -/
theorem reports_on_time (s : Timers Unit Unit) (hinit : Initial s) (start hz rand : ℕ)
    (rands : ℕ → ℕ) (polls : List ℕ) (hhz : 0 < hz) (hlt : hz < 2 ^ 63) (hstart : 0 < start)
    (hsorted : (start :: polls).Pairwise (· ≤ ·))
    (hbound : ∀ time ∈ start :: polls, time < 2 ^ 63) :
    let lines := reports s (mainEvents start hz rand rands polls)
    lines ≤ (polls.getLastD start - start) / hz ∧
      ((start :: polls).IsChain (fun a b => b ≤ a + hz) →
        lines = (polls.getLastD start - start) / hz) := by
  intro lines
  have hlines : lines = polls.foldl (fires start hz) 0 :=
    reports_eq_fires hinit hhz hlt hstart hbound rand rands
  have hle := foldl_fires_le (k := 0) hsorted (by omega : start + 0 * hz ≤ start)
  rw [← hlines] at hle
  constructor
  · rw [Nat.le_div_iff_mul_le hhz]
    omega
  · intro hchain
    have hlast := lt_foldl_fires (k := 0) hchain (by omega : start < start + (0 + 1) * hz)
    rw [← hlines] at hlast
    symm
    apply Nat.div_eq_of_lt_le
    · omega
    · omega

def timer : Timers Unit Unit :=
  ⟨SkipList.empty (fun _ => 0), ⟨fun _ => .stop, fun _ => 0, fun _ => none, false, none⟩⟩

/-- A second of 10 cycles; the passes of the loop come at 105, 110, 119 and 128. -/
theorem reports_on_time_timer :
    reports timer (mainEvents 100 10 6 (fun poll => poll) [105, 110, 119, 128]) = 2 := by
  have hrun := reports_on_time timer ⟨fun _ => rfl, rfl, rfl, fun _ => rfl⟩ 100 10 6
    (fun poll => poll) [105, 110, 119, 128] (by decide) (by decide) (by decide) (by decide)
    (by decide)
  exact hrun.2 (by decide)

end SoftwareSwitches.Reports
