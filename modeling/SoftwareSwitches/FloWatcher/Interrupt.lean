import SoftwareSwitches.FloWatcher.Counter
import SoftwareSwitches.FloWatcher.Launch

/-!
# The report printed on SIGINT

`main` installs `handler` before it initialises anything.  `handler` reads the
port counters and the time, and divides the packets by the time since `start`;
`start` is written by `lcore_main`, which `main` launches as its last step.

A run interleaves the steps of `main`, of the polling lcore, of the NIC and of the
handler, which suspends whichever thread the signal was delivered to.  Time is a
count of microseconds; every call of `gettimeofday` is one step and reads a later
time than the one before.
-/

namespace SoftwareSwitches.FloWatcher.Interrupt

open SoftwareSwitches.Lib.BinaryRounding
open SoftwareSwitches.Lib.Execution

structure Timeval where
  tvSec : ℤ
  tvUsec : ℤ

def timeval (t : ℕ) : Timeval := ⟨t / 1000000, t % 1000000⟩

def Timeval.micros (tv : Timeval) : ℤ := tv.tvSec * 1000000 + tv.tvUsec

structure EthStats where
  ipackets : ℕ
  imissed : ℕ
  ierrors : ℕ

def EthStats.received (st : EthStats) : ℕ :=
  (st.ipackets + st.imissed + st.ierrors) % 2 ^ 64

def duration (start stop : Timeval) : ℚ :=
  double (double (double (stop.tvUsec - start.tvUsec : ℤ) / 1000000) +
    double (stop.tvSec - start.tvSec : ℤ))

/-- What `handler` prints.  The counters are `none` when `rte_eth_stats_get` left
the local struct uninitialised, the throughput when its divisor is zero too. -/
structure Report where
  stats : Option EthStats
  duration : ℚ
  throughput : Option ℚ

def report (stats : Option EthStats) (duration : ℚ) : Report where
  stats := stats
  duration := duration
  throughput := stats.bind fun st =>
    let divisor := double (duration * 1000000)
    if divisor = 0 then none else some (double (double st.received / divisor))

inductive MainPc where
  | ealInit
  | timerInit
  | poolCreate
  | portInit
  | launch
  | manage

/-- `waiting` until `lcore_main` is launched, `announced` after its `printf`. -/
inductive SlavePc where
  | waiting
  | entered
  | announced
  | polling
deriving DecidableEq

inductive HandlerPc where
  | idle
  | entered
  | gotStats (stats : Option EthStats)
  | gotStop (stats : Option EthStats)
  | reported (r : Report)

/-- The thread that runs the handler: any lcore may receive the signal. -/
inductive Thread where
  | main
  | slave
  | other
deriving DecidableEq

structure State where
  slaves : List ℕ
  main : MainPc
  slave : SlavePc
  interrupted : Option Thread
  handler : HandlerPc
  /-- Time of the last clock reading. -/
  now : ℕ
  start : Timeval
  stop : Timeval
  /-- Counters of port 0, once a device is attached to it. -/
  port : Option EthStats
  exited : Bool

def init (slaves : List ℕ) (installed : ℕ) : State where
  slaves := slaves
  main := .ealInit
  slave := .waiting
  interrupted := none
  handler := .idle
  now := installed
  start := ⟨0, 0⟩
  stop := ⟨0, 0⟩
  port := none
  exited := false

/-- `ok` and `attached` are the outcome of the initialisation call `main` is at. -/
inductive Action where
  | main (ok attached : Bool)
  | slave (clock : ℕ)
  | nic (received missed errors : ℕ)
  | sigint (thread : Thread)
  | handler (clock : ℕ)

/-- The clock moves on, within the kernel's signed 64-bit count of nanoseconds. -/
def gettimeofday (s : State) (clock : ℕ) : Option Timeval :=
  if s.now < clock ∧ clock * 1000 < 2 ^ 63 then some (timeval clock) else none

def mainStep (s : State) (ok attached : Bool) : State :=
  match s.main with
  | .ealInit =>
    if ok then
      { s with main := .timerInit, port := if attached then some ⟨0, 0, 0⟩ else none }
    else { s with exited := true }
  | .timerInit => { s with main := .poolCreate }
  | .poolCreate =>
    if ok then { s with main := .portInit } else { s with exited := true }
  | .portInit =>
    -- `port_init` fails at once on a port that is not there.
    if ok ∧ s.port.isSome then { s with main := .launch } else { s with exited := true }
  | .launch =>
    { s with
      main := .manage
      slave := if launchLoop rxRings s.slaves 0 = [] then .waiting else .entered }
  | .manage => s

def slaveStep (s : State) (clock : ℕ) : Option State :=
  match s.slave with
  | .waiting => none
  | .entered => some { s with slave := .announced }
  | .announced => do
    let tv ← gettimeofday s clock
    some { s with start := tv, now := clock, slave := .polling }
  | .polling => some s

def handlerStep (s : State) (clock : ℕ) : Option State :=
  match s.handler with
  | .idle => none
  | .entered => some { s with handler := .gotStats s.port }
  | .gotStats stats => do
    let tv ← gettimeofday s clock
    some { s with stop := tv, now := clock, handler := .gotStop stats }
  | .gotStop stats =>
    some { s with handler := .reported (report stats (duration s.start s.stop)) }
  | .reported _ => some { s with exited := true }

def step (s : State) (a : Action) : Option State :=
  if s.exited then none
  else match a with
    | .main ok attached =>
      if s.interrupted = some .main then none else some (mainStep s ok attached)
    | .slave clock => if s.interrupted = some .slave then none else slaveStep s clock
    | .nic received missed errors =>
      some { s with port := s.port.map fun st =>
        ⟨st.ipackets + received, st.imissed + missed, st.ierrors + errors⟩ }
    | .sigint thread =>
      if s.interrupted = none then
        some { s with interrupted := some thread, handler := .entered }
      else none
    | .handler clock => handlerStep s clock

/-! ## The computed duration -/

theorem timeval_micros (t : ℕ) : (timeval t).micros = t := by
  simp only [timeval, Timeval.micros]
  omega

theorem double_intCast {n : ℤ} (hn : |n| < 2 ^ 53) : double (n : ℚ) = n :=
  roundBits_intCast hn

section Duration

variable {a b : ℕ}

def unroundedDuration (start stop : Timeval) : ℚ :=
  double ((stop.tvUsec - start.tvUsec : ℤ) / 1000000) + (stop.tvSec - start.tvSec : ℤ)

theorem duration_eq_double (ha : a * 1000 < 2 ^ 63) (hb : b * 1000 < 2 ^ 63) :
    duration (timeval a) (timeval b) =
      double (unroundedDuration (timeval a) (timeval b)) := by
  have husec : |(timeval b).tvUsec - (timeval a).tvUsec| < 2 ^ 53 := by
    simp only [timeval]
    rw [abs_lt]
    omega
  have hsec : |(timeval b).tvSec - (timeval a).tvSec| < 2 ^ 53 := by
    simp only [timeval]
    rw [abs_lt]
    omega
  rw [duration, double_intCast husec, double_intCast hsec, unroundedDuration]

theorem abs_unroundedDuration_sub_le :
    |unroundedDuration (timeval a) (timeval b) - ((b : ℚ) - a) / 1000000| ≤
      2 ^ (-53 : ℤ) := by
  have hsplit : ((b : ℚ) - a) / 1000000 =
      ((timeval b).tvUsec - (timeval a).tvUsec : ℤ) / 1000000 +
        ((timeval b).tvSec - (timeval a).tvSec : ℤ) := by
    have hmicros : ((b : ℤ) : ℚ) - ((a : ℤ) : ℚ) =
        ((timeval b).micros : ℚ) - ((timeval a).micros : ℚ) := by
      rw [timeval_micros, timeval_micros]
    simp only [Timeval.micros] at hmicros
    push_cast at hmicros ⊢
    rw [hmicros]
    ring
  have herror := abs_roundBits_sub_le 53
    (((timeval b).tvUsec - (timeval a).tvUsec : ℤ) / 1000000 : ℚ)
  have hsmall : |(((timeval b).tvUsec - (timeval a).tvUsec : ℤ) / 1000000 : ℚ)| ≤ 1 := by
    have hint : |(timeval b).tvUsec - (timeval a).tvUsec| ≤ 1000000 := by
      simp only [timeval]
      rw [abs_le]
      omega
    have hrat : |(((timeval b).tvUsec - (timeval a).tvUsec : ℤ) : ℚ)| ≤ 1000000 := by
      exact_mod_cast hint
    rw [abs_div, abs_of_pos (by norm_num : (0 : ℚ) < 1000000),
      div_le_one (by norm_num)]
    exact hrat
  rw [hsplit, unroundedDuration, add_sub_add_right_eq_sub]
  calc |double (((timeval b).tvUsec - (timeval a).tvUsec : ℤ) / 1000000) -
        (((timeval b).tvUsec - (timeval a).tvUsec : ℤ) / 1000000 : ℚ)|
      ≤ 2 ^ (-53 : ℤ) * |(((timeval b).tvUsec - (timeval a).tvUsec : ℤ) / 1000000 : ℚ)| :=
        by exact_mod_cast herror
    _ ≤ 2 ^ (-53 : ℤ) * 1 := mul_le_mul_of_nonneg_left hsmall (by positivity)
    _ = 2 ^ (-53 : ℤ) := mul_one _

theorem abs_duration_sub_lt (ha : a * 1000 < 2 ^ 63) (hb : b * 1000 < 2 ^ 63) :
    |duration (timeval a) (timeval b) - ((b : ℚ) - a) / 1000000| < 1 / 1000000 := by
  have hinner := abs_unroundedDuration_sub_le (a := a) (b := b)
  have hlarge : |unroundedDuration (timeval a) (timeval b)| < 2 ^ (34 : ℤ) := by
    have ha' : (a : ℚ) * 1000 < 2 ^ 63 := by exact_mod_cast ha
    have hb' : (b : ℚ) * 1000 < 2 ^ 63 := by exact_mod_cast hb
    have ha0 : (0 : ℚ) ≤ a := by positivity
    have hb0 : (0 : ℚ) ≤ b := by positivity
    rw [abs_le] at hinner
    rw [abs_lt]
    norm_num at hinner ha' hb' ⊢
    constructor <;> linarith
  have houter := abs_roundBits_sub_le_of_lt 53 hlarge
  rw [duration_eq_double ha hb]
  calc |double (unroundedDuration (timeval a) (timeval b)) - ((b : ℚ) - a) / 1000000|
      ≤ |double (unroundedDuration (timeval a) (timeval b)) -
          unroundedDuration (timeval a) (timeval b)| +
        |unroundedDuration (timeval a) (timeval b) - ((b : ℚ) - a) / 1000000| :=
        abs_sub_le _ _ _
    _ ≤ 1 / 2 * 2 ^ ((34 : ℤ) - 53) + 2 ^ (-53 : ℤ) := add_le_add (by exact_mod_cast houter) hinner
    _ < 1 / 1000000 := by norm_num

theorem duration_pos (ha : a * 1000 < 2 ^ 63) (hb : b * 1000 < 2 ^ 63) (hab : a < b) :
    0 < duration (timeval a) (timeval b) := by
  have hinner := (abs_le.mp (abs_unroundedDuration_sub_le (a := a) (b := b))).1
  have hstep : (a : ℚ) + 1 ≤ b := by exact_mod_cast hab
  rw [duration_eq_double ha hb]
  apply roundBits_pos (by norm_num)
  norm_num at hinner
  linarith

theorem duration_neg (ha : a * 1000 < 2 ^ 63) (hb : b * 1000 < 2 ^ 63) (hba : b < a) :
    duration (timeval a) (timeval b) < 0 := by
  have hinner := (abs_le.mp (abs_unroundedDuration_sub_le (a := a) (b := b))).2
  have hstep : (b : ℚ) + 1 ≤ a := by exact_mod_cast hba
  rw [duration_eq_double ha hb]
  apply roundBits_neg (by norm_num)
  norm_num at hinner
  linarith

end Duration

/-! ## When the report is meaningful -/

/-- The duration is positive and at most the time since the handler was installed,
and the throughput is the port's packets over it. -/
structure Meaningful (installed : ℕ) (stop : Timeval) (r : Report) : Prop where
  pos : 0 < r.duration
  le_elapsed : r.duration ≤ ((stop.micros - installed : ℤ) : ℚ) / 1000000
  throughput : ∃ st, r.stats = some st ∧ 0 < double (r.duration * 1000000) ∧
    r.throughput = some (double (double st.received / double (r.duration * 1000000)))

/-- The handler asks for the counters of an attached port, and for the time after
`lcore_main` has stored its own. -/
def handlerReady (s : State) : Action → Bool
  | .handler _ =>
    match s.handler with
    | .entered => s.port.isSome
    | .gotStats _ => s.slave = .polling
    | _ => true
  | _ => true

section Meaning

variable {installed a b : ℕ} {stats : Option EthStats}

theorem meaningful_report (hstats : stats.isSome) (ha : a * 1000 < 2 ^ 63)
    (hb : b * 1000 < 2 ^ 63) (hinstalled : installed < a) (hab : a < b) :
    Meaningful installed (timeval b)
      (report stats (duration (timeval a) (timeval b))) := by
  obtain ⟨st, rfl⟩ := Option.isSome_iff_exists.mp hstats
  have hpos := duration_pos ha hb hab
  have hclose := (abs_lt.mp (abs_duration_sub_lt ha hb)).2
  have hdivisor : 0 < double (duration (timeval a) (timeval b) * 1000000) :=
    roundBits_pos (by norm_num) (by positivity)
  refine ⟨hpos, ?_, ⟨st, rfl, hdivisor, ?_⟩⟩
  · have hlater : (installed : ℚ) + 1 ≤ a := by exact_mod_cast hinstalled
    rw [timeval_micros]
    push_cast
    change duration (timeval a) (timeval b) ≤ _
    linarith
  · simp [report, hdivisor.ne']

theorem not_meaningful_of_no_start (hb : b * 1000 < 2 ^ 63) (hinstalled : 0 < installed) :
    ¬ Meaningful installed (timeval b)
      (report stats (duration (timeval 0) (timeval b))) := by
  intro h
  have hle := h.le_elapsed
  have hclose := (abs_lt.mp (abs_duration_sub_lt (a := 0) (by norm_num) hb)).1
  have hone : (1 : ℚ) ≤ installed := by exact_mod_cast hinstalled
  rw [timeval_micros] at hle
  push_cast at hle hclose
  change duration (timeval 0) (timeval b) ≤ _ at hle
  linarith

theorem not_meaningful_of_late_start (ha : a * 1000 < 2 ^ 63) (hb : b * 1000 < 2 ^ 63)
    (hba : b < a) :
    ¬ Meaningful installed (timeval b)
      (report stats (duration (timeval a) (timeval b))) := by
  intro h
  have hneg := duration_neg ha hb hba
  have hpos := h.pos
  change 0 < duration (timeval a) (timeval b) at hpos
  linarith

theorem not_meaningful_of_no_stats (stop : Timeval) (d : ℚ) :
    ¬ Meaningful installed stop (report none d) := by
  intro h
  obtain ⟨st, hst, -, -⟩ := h.throughput
  cases hst

end Meaning

/-! ## What every step keeps -/

structure Clocked (installed : ℕ) (s : State) : Prop where
  launched : s.slave ≠ .waiting → s.main = .manage
  idle : s.interrupted = none → s.handler = .idle
  now_ge : installed ≤ s.now
  zero : s.slave ≠ .polling → s.start = timeval 0
  stored : s.slave = .polling →
    ∃ a, s.start = timeval a ∧ installed < a ∧ a ≤ s.now ∧ a * 1000 < 2 ^ 63

theorem clocked_init (slaves : List ℕ) (installed : ℕ) :
    Clocked installed (init slaves installed) := by
  refine ⟨fun h => absurd rfl h, fun _ => rfl, le_rfl, fun _ => rfl, ?_⟩
  intro h
  cases h

structure Background (s t : State) : Prop where
  stop : t.stop = s.stop
  handler : t.handler = s.handler ∨ s.handler = .idle ∧ t.handler = .entered
  polling : s.slave = .polling → t.slave = .polling ∧ t.start = s.start
  now_le : s.now ≤ t.now
  stored : s.slave ≠ .polling → t.slave = .polling →
    ∃ a, t.start = timeval a ∧ s.now < a ∧ a * 1000 < 2 ^ 63

section Steps

variable {installed clock : ℕ} {s t : State}

theorem background_of_slave_eq (hstop : t.stop = s.stop)
    (hhandler : t.handler = s.handler ∨ s.handler = .idle ∧ t.handler = .entered)
    (hslave : t.slave = s.slave) (hstart : t.start = s.start) (hnow : t.now = s.now) :
    Background s t := by
  refine ⟨hstop, hhandler, fun hp => ⟨hslave.trans hp, hstart⟩, hnow.ge, ?_⟩
  intro hne hp
  exact absurd (hslave.symm.trans hp) hne

theorem gettimeofday_eq_some {tv : Timeval} :
    gettimeofday s clock = some tv ↔
      s.now < clock ∧ clock * 1000 < 2 ^ 63 ∧ timeval clock = tv := by
  unfold gettimeofday
  split_ifs with h
  · rw [Option.some.injEq]
    tauto
  · simp only [false_iff]
    tauto

theorem mainStep_manage (h : s.main = .manage) (ok attached : Bool) :
    mainStep s ok attached = s := by
  simp [mainStep, h]

theorem mainStep_waiting (h : s.slave = .waiting) (ok attached : Bool)
    (ht : mainStep s ok attached = t) :
    t.handler = s.handler ∧ t.interrupted = s.interrupted ∧ t.now = s.now ∧
      t.start = s.start ∧ t.stop = s.stop ∧
      (t.slave = .waiting ∨ t.slave = .entered ∧ t.main = .manage) := by
  subst ht
  unfold mainStep
  split
  · split_ifs <;> simp [h]
  · simp [h]
  · split_ifs <;> simp [h]
  · split_ifs <;> simp [h]
  · split_ifs <;> simp
  · simp [h]

theorem main_step (h : Clocked installed s) (ok attached : Bool)
    (ht : mainStep s ok attached = t) : Clocked installed t ∧ Background s t := by
  by_cases hwait : s.slave = .waiting
  · obtain ⟨hhandler, hinterrupted, hnow, hstart, hstop, hslave⟩ :=
      mainStep_waiting hwait ok attached ht
    have hpolling : t.slave ≠ .polling := by
      rcases hslave with hslave | ⟨hslave, -⟩ <;> simp [hslave]
    refine ⟨⟨?_, ?_, ?_, ?_, ?_⟩, ⟨hstop, Or.inl hhandler, ?_, hnow.ge, ?_⟩⟩
    · intro hne
      rcases hslave with hslave | ⟨-, hmain⟩
      · exact absurd hslave hne
      · exact hmain
    · rw [hhandler, hinterrupted]
      exact h.idle
    · rw [hnow]
      exact h.now_ge
    · intro _
      rw [hstart]
      exact h.zero (by simp [hwait])
    · intro hp
      exact absurd hp hpolling
    · intro hp
      rw [hwait] at hp
      cases hp
    · intro _ hp
      exact absurd hp hpolling
  · rw [mainStep_manage (h.launched hwait)] at ht
    subst ht
    exact ⟨h, background_of_slave_eq rfl (Or.inl rfl) rfl rfl rfl⟩

theorem slave_step (h : Clocked installed s) (ht : slaveStep s clock = some t) :
    Clocked installed t ∧ Background s t := by
  unfold slaveStep at ht
  cases hslave : s.slave with
  | waiting => simp [hslave] at ht
  | entered =>
      simp only [hslave, Option.some.injEq] at ht
      subst ht
      have hmain := h.launched (by simp [hslave])
      have hzero := h.zero (by simp [hslave])
      refine ⟨⟨fun _ => hmain, h.idle, h.now_ge, fun _ => hzero, ?_⟩,
        ⟨rfl, Or.inl rfl, ?_, le_rfl, ?_⟩⟩
      · intro hp
        cases hp
      · intro hp
        rw [hslave] at hp
        cases hp
      · intro _ hp
        cases hp
  | announced =>
      simp only [hslave, Option.bind_eq_bind, Option.bind_eq_some_iff,
        gettimeofday_eq_some, Option.some.injEq] at ht
      obtain ⟨tv, ⟨hlater, hrange, rfl⟩, rfl⟩ := ht
      have hmain := h.launched (by simp [hslave])
      have hnow := h.now_ge
      refine ⟨⟨fun _ => hmain, h.idle, ?_, ?_, ?_⟩, ⟨rfl, Or.inl rfl, ?_, hlater.le, ?_⟩⟩
      · change installed ≤ clock
        omega
      · intro hne
        exact absurd rfl hne
      · intro _
        exact ⟨clock, rfl, by omega, le_rfl, hrange⟩
      · intro hp
        rw [hslave] at hp
        cases hp
      · intro _ _
        exact ⟨clock, rfl, hlater, hrange⟩
  | polling =>
      simp only [hslave, Option.some.injEq] at ht
      subst ht
      exact ⟨h, background_of_slave_eq rfl (Or.inl rfl) rfl rfl rfl⟩

theorem clocked_handlerPc (h : Clocked installed s) (hinterrupted : s.interrupted ≠ none)
    (pc : HandlerPc) : Clocked installed { s with handler := pc } :=
  ⟨h.launched, fun hnone => absurd hnone hinterrupted, h.now_ge, h.zero, h.stored⟩

theorem clocked_handler (h : Clocked installed s) (ht : handlerStep s clock = some t) :
    Clocked installed t := by
  have hactive : s.handler ≠ .idle → s.interrupted ≠ none := fun hne hnone =>
    hne (h.idle hnone)
  unfold handlerStep at ht
  cases hpc : s.handler with
  | idle => simp [hpc] at ht
  | entered =>
      simp only [hpc, Option.some.injEq] at ht
      subst ht
      exact clocked_handlerPc h (hactive (by simp [hpc])) _
  | gotStats stats =>
      simp only [hpc, Option.bind_eq_bind, Option.bind_eq_some_iff,
        gettimeofday_eq_some, Option.some.injEq] at ht
      obtain ⟨tv, ⟨hlater, hrange, rfl⟩, rfl⟩ := ht
      have hnow := h.now_ge
      refine ⟨h.launched, fun hnone => absurd hnone (hactive (by simp [hpc])), ?_, h.zero,
        ?_⟩
      · change installed ≤ clock
        omega
      · intro hp
        obtain ⟨a, ha, hinstalled, hanow, harange⟩ := h.stored hp
        exact ⟨a, ha, hinstalled, hanow.trans hlater.le, harange⟩
  | gotStop stats =>
      simp only [hpc, Option.some.injEq] at ht
      subst ht
      exact clocked_handlerPc h (hactive (by simp [hpc])) _
  | reported r =>
      simp only [hpc, Option.some.injEq] at ht
      subst ht
      exact ⟨h.launched, fun hnone => absurd hnone (hactive (by simp [hpc])), h.now_ge,
        h.zero, h.stored⟩

theorem step_cases (h : Clocked installed s) {a : Action} (ht : step s a = some t) :
    Clocked installed t ∧
      (Background s t ∨ ∃ clock, a = .handler clock ∧ handlerStep s clock = some t) := by
  unfold step at ht
  split at ht
  · cases ht
  cases a with
  | main ok attached =>
      simp only at ht
      split at ht
      · cases ht
      · obtain ⟨hclocked, hback⟩ := main_step h ok attached (Option.some.inj ht)
        exact ⟨hclocked, Or.inl hback⟩
  | slave clock =>
      simp only at ht
      split at ht
      · cases ht
      · obtain ⟨hclocked, hback⟩ := slave_step h ht
        exact ⟨hclocked, Or.inl hback⟩
  | nic received missed errors =>
      simp only [Option.some.injEq] at ht
      subst ht
      exact ⟨⟨h.launched, h.idle, h.now_ge, h.zero, h.stored⟩,
        Or.inl (background_of_slave_eq rfl (Or.inl rfl) rfl rfl rfl)⟩
  | sigint thread =>
      simp only at ht
      split at ht
      · next hnone =>
          simp only [Option.some.injEq] at ht
          subst ht
          refine ⟨⟨h.launched, fun hsome => ?_, h.now_ge, h.zero, h.stored⟩,
            Or.inl (background_of_slave_eq rfl (Or.inr ⟨h.idle hnone, rfl⟩) rfl rfl rfl)⟩
          cases hsome
      · cases ht
  | handler clock => exact ⟨clocked_handler h ht, Or.inr ⟨clock, rfl, ht⟩⟩

end Steps

/-! ## Runs that meet the condition -/

def Good (installed : ℕ) (s : State) : Prop :=
  match s.handler with
  | .idle => True
  | .entered => True
  | .gotStats stats => stats.isSome
  | .gotStop stats => stats.isSome ∧ s.slave = .polling ∧
    ∃ a b, s.start = timeval a ∧ s.stop = timeval b ∧ installed < a ∧ a < b ∧
      b * 1000 < 2 ^ 63
  | .reported r => Meaningful installed s.stop r

def Bad (installed : ℕ) (s : State) : Prop :=
  match s.handler with
  | .idle => False
  | .entered => False
  | .gotStats stats => stats = none
  | .gotStop stats => stats = none ∨
    ∃ b, s.stop = timeval b ∧ b ≤ s.now ∧ b * 1000 < 2 ^ 63 ∧
      (s.slave = .polling → ∃ a, s.start = timeval a ∧ b < a ∧ a * 1000 < 2 ^ 63)
  | .reported r => ¬ Meaningful installed s.stop r

section Runs

variable {installed clock : ℕ} {s t : State}

theorem good_background (h : Good installed s) (hback : Background s t) :
    Good installed t := by
  rcases hback.handler with hsame | ⟨-, hentered⟩
  · unfold Good at h ⊢
    rw [hsame]
    cases hpc : s.handler with
    | idle => trivial
    | entered => trivial
    | gotStats stats => simpa [hpc] using h
    | gotStop stats =>
        simp only [hpc] at h ⊢
        obtain ⟨hstats, hpolling, a, b, hstart, hstop, hbounds⟩ := h
        obtain ⟨hpolling', hstart'⟩ := hback.polling hpolling
        exact ⟨hstats, hpolling', a, b, hstart'.trans hstart, hback.stop.trans hstop,
          hbounds⟩
    | reported r =>
        simp only [hpc, hback.stop] at h ⊢
        exact h
  · simp [Good, hentered]

theorem bad_background (h : Bad installed s) (hback : Background s t) :
    Bad installed t := by
  rcases hback.handler with hsame | ⟨hidle, -⟩
  · unfold Bad at h ⊢
    rw [hsame]
    cases hpc : s.handler with
    | idle => simp [hpc] at h
    | entered => simp [hpc] at h
    | gotStats stats => simpa [hpc] using h
    | gotStop stats =>
        simp only [hpc] at h ⊢
        rcases h with hnone | ⟨b, hstop, hbnow, hb, hlate⟩
        · exact Or.inl hnone
        · refine Or.inr ⟨b, hback.stop.trans hstop, hbnow.trans hback.now_le, hb, ?_⟩
          intro hpolling
          by_cases hbefore : s.slave = .polling
          · obtain ⟨a, hstart, hba, ha⟩ := hlate hbefore
            exact ⟨a, (hback.polling hbefore).2.trans hstart, hba, ha⟩
          · -- `start` is stored only now, after `stop`.
            obtain ⟨a, hstart, hnow, ha⟩ := hback.stored hbefore hpolling
            exact ⟨a, hstart, by omega, ha⟩
    | reported r =>
        simp only [hpc, hback.stop] at h ⊢
        exact h
  · simp [Bad, hidle] at h

theorem good_handler (hclocked : Clocked installed s) (h : Good installed s)
    (hready : handlerReady s (.handler clock)) (ht : handlerStep s clock = some t) :
    Good installed t := by
  unfold handlerStep at ht
  cases hpc : s.handler with
  | idle => simp [hpc] at ht
  | entered =>
      simp only [hpc, Option.some.injEq] at ht
      subst ht
      simpa [Good, handlerReady, hpc] using hready
  | gotStats stats =>
      simp only [hpc, Option.bind_eq_bind, Option.bind_eq_some_iff,
        gettimeofday_eq_some, Option.some.injEq] at ht
      obtain ⟨tv, ⟨hlater, hrange, rfl⟩, rfl⟩ := ht
      have hpolling : s.slave = .polling := by simpa [handlerReady, hpc] using hready
      have hstats : stats.isSome := by simpa [Good, hpc] using h
      obtain ⟨a, hstart, hinstalled, hanow, -⟩ := hclocked.stored hpolling
      exact ⟨hstats, hpolling, a, clock, hstart, rfl, hinstalled, by omega, hrange⟩
  | gotStop stats =>
      simp only [hpc, Option.some.injEq] at ht
      subst ht
      simp only [Good, hpc] at h
      obtain ⟨hstats, -, a, b, hstart, hstop, hinstalled, hab, hb⟩ := h
      have ha : a * 1000 < 2 ^ 63 := (Nat.mul_le_mul_right 1000 hab.le).trans_lt hb
      simp only [Good, hstart, hstop]
      exact meaningful_report hstats ha hb hinstalled hab
  | reported r =>
      simp only [hpc, Option.some.injEq] at ht
      subst ht
      simpa only [Good, hpc] using h

theorem bad_of_not_ready {a : Action} (hready : ¬ handlerReady s a)
    (ht : step s a = some t) : Bad installed t := by
  cases a with
  | main ok attached => simp [handlerReady] at hready
  | slave clock => simp [handlerReady] at hready
  | nic received missed errors => simp [handlerReady] at hready
  | sigint thread => simp [handlerReady] at hready
  | handler clock =>
      unfold step at ht
      split at ht
      · cases ht
      simp only [handlerStep] at ht
      cases hpc : s.handler with
      | entered =>
          simp only [hpc, Option.some.injEq] at ht
          subst ht
          simpa [Bad, handlerReady, hpc] using hready
      | gotStats stats =>
          simp only [hpc, Option.bind_eq_bind, Option.bind_eq_some_iff,
            gettimeofday_eq_some, Option.some.injEq] at ht
          obtain ⟨tv, ⟨hlater, hrange, rfl⟩, rfl⟩ := ht
          have hwait : s.slave ≠ .polling := by simpa [handlerReady, hpc] using hready
          exact Or.inr ⟨clock, rfl, le_rfl, hrange, fun hpolling => absurd hpolling hwait⟩
      | idle => simp [handlerReady, hpc] at hready
      | gotStop stats => simp [handlerReady, hpc] at hready
      | reported r => simp [handlerReady, hpc] at hready

theorem bad_handler (hinstalled : 0 < installed) (hclocked : Clocked installed s)
    (h : Bad installed s) (ht : handlerStep s clock = some t) : Bad installed t := by
  unfold handlerStep at ht
  cases hpc : s.handler with
  | idle => simp [hpc] at ht
  | entered => simp [Bad, hpc] at h
  | gotStats stats =>
      simp only [hpc, Option.bind_eq_bind, Option.bind_eq_some_iff,
        gettimeofday_eq_some, Option.some.injEq] at ht
      obtain ⟨tv, -, rfl⟩ := ht
      simp only [Bad, hpc] at h
      exact Or.inl h
  | gotStop stats =>
      simp only [hpc, Option.some.injEq] at ht
      subst ht
      simp only [Bad, hpc] at h ⊢
      rcases h with rfl | ⟨b, hstop, -, hb, hlate⟩
      · exact not_meaningful_of_no_stats _ _
      · by_cases hpolling : s.slave = .polling
        · obtain ⟨a, hstart, hba, ha⟩ := hlate hpolling
          rw [hstart, hstop]
          exact not_meaningful_of_late_start ha hb hba
        · rw [hclocked.zero hpolling, hstop]
          exact not_meaningful_of_no_start hb hinstalled
  | reported r =>
      simp only [hpc, Option.some.injEq] at ht
      subst ht
      simpa only [Bad, hpc] using h

theorem good_step (a : Action) (h : Clocked installed s ∧ Good installed s)
    (hready : handlerReady s a) (ht : step s a = some t) :
    Clocked installed t ∧ Good installed t := by
  obtain ⟨hclocked, hback | ⟨clock, rfl, hhandler⟩⟩ := step_cases h.1 ht
  · exact ⟨hclocked, good_background h.2 hback⟩
  · exact ⟨hclocked, good_handler h.1 h.2 hready hhandler⟩

theorem bad_step (hinstalled : 0 < installed) (a : Action)
    (h : Clocked installed s ∧ Bad installed s) (ht : step s a = some t) :
    Clocked installed t ∧ Bad installed t := by
  obtain ⟨hclocked, hback | ⟨clock, rfl, hhandler⟩⟩ := step_cases h.1 ht
  · exact ⟨hclocked, bad_background h.2 hback⟩
  · exact ⟨hclocked, bad_handler hinstalled h.1 h.2 hhandler⟩

end Runs

/-- The runs in which the handler never asks too early are exactly those whose
report, if it comes, is meaningful. -/
theorem report_meaningful_of_ready (slaves : List ℕ) (installed : ℕ)
    (acts : List Action) (s : State) (r : Report) (hreport : s.handler = .reported r) :
    (exec (guarded (fun s a => handlerReady s a) step) acts (init slaves installed) = some s →
      Meaningful installed s.stop r) ∧
    (0 < installed → exec step acts (init slaves installed) = some s →
      Meaningful installed s.stop r →
      exec (guarded (fun s a => handlerReady s a) step) acts (init slaves installed) =
        some s) := by
  have hinit : Clocked installed (init slaves installed) ∧
      Good installed (init slaves installed) :=
    ⟨clocked_init slaves installed, trivial⟩
  constructor
  · intro hrun
    have hstep : ∀ u a v, Clocked installed u ∧ Good installed u →
        guarded (fun s a => handlerReady s a) step u a = some v →
        Clocked installed v ∧ Good installed v := by
      intro u a v hu hv
      obtain ⟨hready, hv⟩ := guarded_eq_some.mp hv
      exact good_step a hu hready hv
    have hgood := (exec_invariant hstep hinit hrun).2
    simpa [Good, hreport] using hgood
  · intro hinstalled hrun hmeaningful
    have hgood : ∀ u a v, Clocked installed u ∧ Good installed u → handlerReady u a →
        step u a = some v → Clocked installed v ∧ Good installed v :=
      fun u a v hu hready hv => good_step a hu hready hv
    have hspoil : ∀ u a v, Clocked installed u ∧ Good installed u → ¬ handlerReady u a →
        step u a = some v → Clocked installed v ∧ Bad installed v :=
      fun u a v hu hready hv => ⟨(step_cases hu.1 hv).1, bad_of_not_ready hready hv⟩
    have hstay : ∀ u a v, Clocked installed u ∧ Bad installed u → step u a = some v →
        Clocked installed v ∧ Bad installed v :=
      fun u a v hu hv => bad_step hinstalled a hu hv
    rcases exec_guarded_or hgood hspoil hstay hinit hrun with hguarded | ⟨-, hbad⟩
    · exact hguarded
    · simp only [Bad, hreport] at hbad
      exact absurd hmeaningful hbad

def mainRun : List Action :=
  [.main true true, .main true true, .main true true, .main true true, .main true true]

/-- A signal two seconds after `lcore_main` has stored `start`. -/
def timelyRun : List Action :=
  mainRun ++ [.slave 0, .slave 1700000001900000, .nic 1000 10 1, .sigint .main, .handler 0,
    .handler 1700000003900000, .handler 0]

theorem report_meaningful_of_ready_timelyRun :
    ∃ s r, exec (guarded (fun s a => handlerReady s a) step) timelyRun
        (init [15, 16] 1700000000000000) = some s ∧
      s.handler = .reported r ∧ Meaningful 1700000000000000 s.stop r := by
  refine ⟨_, _, rfl, rfl, ?_⟩
  exact (report_meaningful_of_ready [15, 16] 1700000000000000 timelyRun _ _ rfl).1 rfl

/-- A signal before `lcore_main` has stored `start`. -/
def earlyRun : List Action :=
  mainRun ++ [.slave 0, .sigint .main, .handler 0, .handler 1700000001900000, .handler 0]

theorem report_not_meaningful_earlyRun :
    ∃ s r, exec step earlyRun (init [15, 16] 1700000000000000) = some s ∧
      s.handler = .reported r ∧ ¬ Meaningful 1700000000000000 s.stop r := by
  refine ⟨_, _, rfl, rfl, ?_⟩
  exact not_meaningful_of_no_start (b := 1700000001900000) (by norm_num) (by norm_num)

end SoftwareSwitches.FloWatcher.Interrupt
