import SoftwareSwitches.Lib.Schedule
import SoftwareSwitches.Workload.Poisson
import Mathlib.Tactic.IntervalCases

/-!
# The varied-rate generators

`loadSlave` of `varied_cbr_rate.lua`, `varied_poisson_rate.lua` and
`varied_imix_rate.lua` walks through a table of rates: every time its timer
expires it takes the next entry, and when there is none it leaves the loop.  The
three loops differ in what they do with the rate only.
-/

namespace SoftwareSwitches.Workload

open SoftwareSwitches.Lib.Schedule

inductive VariedScript where
  | cbr (size : ℕ)
  | poisson
  | imix

def imixSizes : List ℕ := [60, 60, 60, 60, 60, 60, 60, 566, 566, 566, 566, 1510]

structure Draw where
  poissonDelay : ℚ → ℚ
  pick : Fin imixSizes.length

/-- What one iteration learns: the answer of `limiter:expired()`, and a draw for every
buffer of the array, which is never empty. -/
structure Answer where
  expired : Bool
  draws : List Draw
  draws_ne_nil : draws ≠ []

structure SentPacket where
  size : ℕ
  /-- Argument of `setDelay`, `none` where the script does not call it. -/
  delay : Option ℚ

structure Batch where
  /-- Argument of `queue:setRate`, `none` where the script does not call it. -/
  setRate : Option ℚ
  packets : List SentPacket

def VariedScript.batch (rate : ℚ) (draws : List Draw) : VariedScript → Batch
  | .cbr size =>
    { setRate := none
      packets := draws.map fun _ => { size, delay := some (meanDelay rate size) } }
  | .poisson =>
    { setRate := none
      packets := draws.map fun draw =>
        { size := 60, delay := some (draw.poissonDelay (meanDelay rate 60)) } }
  | .imix =>
    { setRate := some rate
      packets := draws.map fun draw => { size := imixSizes.get draw.pick, delay := none } }

/-- Lua tables count from 1, and an index outside gives `nil`. -/
def luaIndex (table : List ℚ) (index : ℕ) : Option ℚ :=
  if index = 0 then none else table[index - 1]?

/-- Local variables of `loadSlave`, with the indices its table has been read at and the
batches it has sent. -/
structure LoadSlave where
  r : ℕ
  rate : Option ℚ
  indexed : List ℕ
  sent : List Batch

inductive Ending where
  | stopped
  | broke
  /-- Arithmetic on a `nil` rate. -/
  | failed
deriving DecidableEq

def LoadSlave.init (rates : List ℚ) : LoadSlave where
  r := 2
  rate := luaIndex rates 1
  indexed := [1]
  sent := []

/-- The branch taken when the timer has expired, `none` for `break`. -/
def LoadSlave.expire (rates : List ℚ) (st : LoadSlave) : Option LoadSlave :=
  if st.r ≤ rates.length then
    some { st with
      rate := luaIndex rates st.r
      indexed := st.indexed ++ [st.r]
      r := st.r + 1 }
  else none

def LoadSlave.iteration (script : VariedScript) (rates : List ℚ) (st : LoadSlave)
    (answer : Answer) : LoadSlave × Option Ending :=
  match if answer.expired then st.expire rates else some st with
  | none => (st, some .broke)
  | some st =>
    match st.rate with
    | none => (st, some .failed)
    | some rate => ({ st with sent := st.sent ++ [script.batch rate answer.draws] }, none)

def LoadSlave.loop (script : VariedScript) (rates : List ℚ) :
    List Answer → LoadSlave → LoadSlave × Ending
  | [], st => (st, .stopped)
  | answer :: answers, st =>
    match st.iteration script rates answer with
    | (st, some ending) => (st, ending)
    | (st, none) => loop script rates answers st

def loadSlave (script : VariedScript) (rates : List ℚ) (answers : List Answer) :
    LoadSlave × Ending :=
  LoadSlave.loop script rates answers (.init rates)

/-! ## The loop is a cursor over the table -/

@[simp] theorem luaIndex_succ (table : List ℚ) (index : ℕ) :
    luaIndex table (index + 1) = table[index]? := by
  simp [luaIndex]

/-- `r` runs one ahead of the entry in force. -/
structure LoadSlave.At (rates : List ℚ) (entry : ℕ) (st : LoadSlave) : Prop where
  lt : entry < rates.length
  r : st.r = entry + 2
  rate : st.rate = rates[entry]?

def signals (answers : List Answer) : List Bool := answers.map Answer.expired

namespace LoadSlave

variable (script : VariedScript) {rates : List ℚ} {entry : ℕ} {st : LoadSlave}

theorem init_at (h : rates ≠ []) : (init rates).At rates 0 where
  lt := List.length_pos_iff.mpr h
  r := rfl
  rate := luaIndex_succ rates 0

theorem iteration_of_lt (hat : st.At rates entry) (answer : Answer)
    (hlt : entry + answer.expired.toNat < rates.length) :
    ∃ st', st.iteration script rates answer = (st', none) ∧
      st'.At rates (entry + answer.expired.toNat) ∧
      st'.sent = st.sent ++
        [script.batch (rates.getD (entry + answer.expired.toNat) 0) answer.draws] ∧
      st'.indexed = st.indexed ++
        if answer.expired then [entry + answer.expired.toNat + 1] else [] := by
  cases hexpired : answer.expired with
  | false =>
      have hrate : st.rate = some rates[entry] := by
        rw [hat.rate, List.getElem?_eq_getElem hat.lt]
      simp only [iteration, hexpired, hrate, Bool.false_eq_true, if_false]
      refine ⟨_, rfl, ⟨hat.lt, hat.r, ?_⟩, ?_, ?_⟩
      · simp [hat.lt]
      · simp [hat.lt]
      · simp
  | true =>
      rw [hexpired] at hlt
      have hlt' : entry + 1 < rates.length := hlt
      have hr : st.r ≤ rates.length := by
        rw [hat.r]
        omega
      have hrate : luaIndex rates st.r = some rates[entry + 1] := by
        rw [hat.r, luaIndex_succ, List.getElem?_eq_getElem hlt']
      simp only [iteration, hexpired, expire, hr, hrate, if_true]
      refine ⟨_, rfl, ⟨hlt', ?_, ?_⟩, ?_, ?_⟩
      · simp [hat.r]
      · simp [hlt']
      · simp [hlt']
      · simp [hat.r]

theorem iteration_of_last (hat : st.At rates entry) {answer : Answer}
    (hlast : ¬ entry + answer.expired.toNat < rates.length) :
    st.iteration script rates answer = (st, some .broke) := by
  have hlt := hat.lt
  cases hexpired : answer.expired with
  | false =>
      rw [hexpired] at hlast
      exact absurd hlt hlast
  | true =>
      rw [hexpired, Bool.toNat_true] at hlast
      have hr : ¬ st.r ≤ rates.length := by
        rw [hat.r]
        omega
      simp [iteration, hexpired, expire, hr]

theorem loop_eq (hat : st.At rates entry) (answers : List Answer) :
    let entries := served rates.length entry (signals answers)
    (loop script rates answers st).1.sent = st.sent ++
        List.zipWith (fun answer entry => script.batch (rates.getD entry 0) answer.draws)
          answers entries ∧
      (loop script rates answers st).1.indexed = st.indexed ++
        ((answers.zip entries).filter (·.1.expired)).map (·.2 + 1) ∧
      (loop script rates answers st).2 =
        if entry + (signals answers).count true < rates.length then .stopped else .broke := by
  induction answers generalizing st entry with
  | nil => simp [loop, signals, served, hat.lt]
  | cons answer answers ih =>
      have hsignals : signals (answer :: answers) = answer.expired :: signals answers := rfl
      simp only [hsignals, count_true_cons]
      by_cases hlt : entry + answer.expired.toNat < rates.length
      · obtain ⟨st', hstep, hat', hsent, hindexed⟩ := iteration_of_lt script hat answer hlt
        obtain ⟨ihsent, ihindexed, ihending⟩ := ih hat'
        simp only [loop, hstep, served, if_pos hlt]
        refine ⟨?_, ?_, ?_⟩
        · rw [ihsent, hsent]
          simp
        · rw [ihindexed, hindexed]
          cases hexpired : answer.expired with
          | false => simp [hexpired]
          | true => simp [hexpired]
        · rw [ihending, Nat.add_assoc]
      · have hcount : ¬ entry + (answer.expired.toNat + (signals answers).count true) <
            rates.length := by omega
        simp only [loop, iteration_of_last script hat hlt, served, if_neg hlt, if_neg hcount]
        simp

end LoadSlave

/-! ## The schedule is walked through exactly -/

def expiriesThrough (answers : List Answer) (iteration : ℕ) : ℕ :=
  (signals (answers.take (iteration + 1))).count true

def usedEntries (answers : List Answer) (st : LoadSlave) : List ℕ :=
  (List.range st.sent.length).map fun i => expiriesThrough answers i + 1

/-- A batch is never empty, and shows the rate it is sent with in the value given to
`setRate` or in the delays of its packets. -/
structure WalksSchedule (script : VariedScript) (rates : List ℚ) (answers : List Answer)
    (st : LoadSlave) (ending : Ending) : Prop where
  /-- A batch sent after `j` expiries is sent with `rates[j+1]`. -/
  sent : ∀ i answer, i < st.sent.length → answers[i]? = some answer →
    ∃ rate, luaIndex rates (expiriesThrough answers i + 1) = some rate ∧
      st.sent[i]? = some (script.batch rate answer.draws)
  inOrder : (usedEntries answers st).IsChain fun a b => b = a ∨ b = a + 1
  /-- Index 1 is read before the loop, all others by an expiry. -/
  allUsed : ∀ index ∈ st.indexed.tail, index ∈ usedEntries answers st
  inRange : ∀ index ∈ st.indexed, 1 ≤ index ∧ index ≤ rates.length
  /-- The expiry that finds no entry left ends the loop, with nothing sent. -/
  breaks : rates.length ≤ (signals answers).count true → ending = .broke ∧
    ∃ k answer, answers[k]? = some answer ∧ answer.expired ∧
      expiriesThrough answers k = rates.length ∧ st.sent.length = k
  continues : (signals answers).count true < rates.length →
    ending = .stopped ∧ st.sent.length = answers.length

section Walk

variable (script : VariedScript) {rates : List ℚ} (hrates : rates ≠ [])
  (answers : List Answer)

theorem signals_take (i : ℕ) : signals (answers.take i) = (signals answers).take i := by
  simp [signals, List.map_take]

theorem exists_expiry {n : ℕ} (hpos : 0 < n) (hcount : n ≤ (signals answers).count true) :
    ∃ k answer, answers[k]? = some answer ∧ answer.expired = true ∧
      expiriesThrough answers k = n ∧ (served n 0 (signals answers)).length = k := by
  obtain ⟨k, hk, hentry, hlength⟩ := exists_last_signal hpos
    (show n ≤ 0 + (signals answers).count true by omega)
  obtain ⟨answer, hanswer, hexpired⟩ : ∃ answer, answers[k]? = some answer ∧
      answer.expired = true := by simpa [signals] using hk
  refine ⟨k, answer, hanswer, hexpired, ?_, hlength⟩
  rw [expiriesThrough, signals_take]
  omega

include hrates in
theorem loadSlave_sent_eq :
    (loadSlave script rates answers).1.sent =
      List.zipWith (fun answer entry => script.batch (rates.getD entry 0) answer.draws)
        answers (served rates.length 0 (signals answers)) :=
  (LoadSlave.loop_eq script (LoadSlave.init_at hrates) answers).1

include hrates in
theorem loadSlave_indexed_eq :
    (loadSlave script rates answers).1.indexed =
      1 :: ((answers.zip (served rates.length 0 (signals answers))).filter
        (·.1.expired)).map (·.2 + 1) :=
  (LoadSlave.loop_eq script (LoadSlave.init_at hrates) answers).2.1

include hrates in
theorem loadSlave_ending_eq :
    (loadSlave script rates answers).2 =
      if (signals answers).count true < rates.length then .stopped else .broke := by
  have h := (LoadSlave.loop_eq script (LoadSlave.init_at hrates) answers).2.2
  rwa [Nat.zero_add] at h

include hrates in
theorem length_loadSlave_sent :
    (loadSlave script rates answers).1.sent.length =
      (served rates.length 0 (signals answers)).length := by
  have hle : (served rates.length 0 (signals answers)).length ≤ answers.length := by
    simpa [signals] using length_served_le rates.length 0 (signals answers)
  rw [loadSlave_sent_eq script hrates, List.length_zipWith, Nat.min_eq_right hle]

include hrates in
theorem lt_length_loadSlave_sent_iff (i : ℕ) :
    i < (loadSlave script rates answers).1.sent.length ↔
      i < answers.length ∧ expiriesThrough answers i < rates.length := by
  rw [length_loadSlave_sent script hrates, lt_length_served_iff, expiriesThrough,
    signals_take, Nat.zero_add]
  simp [signals]

include hrates in
theorem getElem?_loadSlave_sent {i : ℕ} {answer : Answer}
    (hi : i < (loadSlave script rates answers).1.sent.length)
    (hanswer : answers[i]? = some answer) :
    ∃ rate, luaIndex rates (expiriesThrough answers i + 1) = some rate ∧
      (loadSlave script rates answers).1.sent[i]? =
        some (script.batch rate answer.draws) := by
  have hlt := ((lt_length_loadSlave_sent_iff script hrates answers i).mp hi).2
  rw [length_loadSlave_sent script hrates] at hi
  have hentry : (served rates.length 0 (signals answers))[i] = expiriesThrough answers i := by
    rw [getElem_served hi, expiriesThrough, signals_take, Nat.zero_add]
  refine ⟨rates[expiriesThrough answers i], ?_, ?_⟩
  · rw [luaIndex_succ, List.getElem?_eq_getElem hlt]
  · rw [loadSlave_sent_eq script hrates, List.getElem?_zipWith, hanswer,
      List.getElem?_eq_getElem hi, hentry]
    simp [hlt]

include hrates in
theorem usedEntries_loadSlave :
    usedEntries answers (loadSlave script rates answers).1 =
      (served rates.length 0 (signals answers)).map (· + 1) := by
  apply List.ext_getElem
  · simp [usedEntries, length_loadSlave_sent script hrates]
  · intro i hi hi'
    have hlt : i < (served rates.length 0 (signals answers)).length := by simpa using hi'
    simp [usedEntries, expiriesThrough, getElem_served hlt, signals_take]

end Walk

theorem loadSlave_walksSchedule (script : VariedScript) (rates : List ℚ)
    (hrates : rates ≠ []) (answers : List Answer) :
    WalksSchedule script rates answers (loadSlave script rates answers).1
      (loadSlave script rates answers).2 := by
  have hlength := length_loadSlave_sent script hrates answers
  have hused := usedEntries_loadSlave script hrates answers
  have hindexed := loadSlave_indexed_eq script hrates answers
  have hending := loadSlave_ending_eq script hrates answers
  have hpos : 0 < rates.length := List.length_pos_iff.mpr hrates
  -- An expiry reads the entry its own iteration is served with.
  have hserved : ∀ index ∈ ((answers.zip (served rates.length 0 (signals answers))).filter
      (·.1.expired)).map (·.2 + 1),
      index ∈ (served rates.length 0 (signals answers)).map (· + 1) := by
    intro index hindex
    obtain ⟨pair, hpair, rfl⟩ := List.mem_map.mp hindex
    exact List.mem_map_of_mem (List.of_mem_zip (List.mem_filter.mp hpair).1).2
  constructor
  case sent =>
    intro i answer hi hanswer
    exact getElem?_loadSlave_sent script hrates answers hi hanswer
  case inOrder =>
    rw [hused, List.isChain_map]
    apply (isChain_served rates.length 0 (signals answers)).imp
    intro a b hab
    omega
  case allUsed =>
    intro index hindex
    rw [hindexed, List.tail_cons] at hindex
    rw [hused]
    exact hserved index hindex
  case inRange =>
    intro index hindex
    rw [hindexed] at hindex
    rcases List.mem_cons.mp hindex with rfl | hindex
    · exact ⟨le_rfl, hpos⟩
    · obtain ⟨entry, hentry, rfl⟩ := List.mem_map.mp (hserved index hindex)
      have hlt := lt_of_mem_served hentry
      omega
  case breaks =>
    intro hcount
    refine ⟨by rw [hending, if_neg (by omega)], ?_⟩
    obtain ⟨k, answer, hanswer, hexpired, hthrough, hstop⟩ :=
      exists_expiry answers hpos hcount
    exact ⟨k, answer, hanswer, hexpired, hthrough, hlength.trans hstop⟩
  case continues =>
    intro hcount
    refine ⟨by rw [hending, if_pos hcount], ?_⟩
    rw [hlength, length_served_of_lt (by omega), signals, List.length_map]

def quietAnswer (expired : Bool) : Answer where
  expired := expired
  draws := [{ poissonDelay := id, pick := ⟨0, by decide⟩ }]
  draws_ne_nil := by simp

theorem loadSlave_walksSchedule_two_rates :
    ([1 / 2, 1] : List ℚ) ≠ [] ∧
    (loadSlave (.cbr 60) [1 / 2, 1] ([false, true, true, false].map quietAnswer)).2 = .broke ∧
    WalksSchedule (.cbr 60) [1 / 2, 1] ([false, true, true, false].map quietAnswer)
      (loadSlave (.cbr 60) [1 / 2, 1] ([false, true, true, false].map quietAnswer)).1
      (loadSlave (.cbr 60) [1 / 2, 1] ([false, true, true, false].map quietAnswer)).2 :=
  ⟨by simp, by decide, loadSlave_walksSchedule _ _ (by simp) _⟩

/-! ## The gaps at a constant bit rate -/

/-- The literal tables of the scripts, in Mpps and for the last in Mbit/s. -/
def VariedScript.rates : VariedScript → List ℚ
  | .cbr _ => [1 / 2, 1, 3 / 2, 2, 5 / 2]
  | .poisson => [74 / 100, 372 / 100, 744 / 100, 1116 / 100, 1488 / 100, 1116 / 100,
      744 / 100, 372 / 100, 74 / 100]
  | .imix => [473, 2366, 4732, 7098, 9464, 7098, 4732, 2366, 473]

def cbrDefaultSize : ℕ := 508

/-- Every packet fills exactly the slot of the entry in force on a 10 Gbit/s link. -/
def ExactSlots (size : ℕ) (answers : List Answer) : Prop :=
  ∀ i batch,
    (loadSlave (.cbr size) (VariedScript.cbr size).rates answers).1.sent[i]? = some batch →
    ∃ rate, luaIndex (VariedScript.cbr size).rates (expiriesThrough answers i + 1) = some rate ∧
      ∀ packet ∈ batch.packets, ∃ delay, packet.delay = some delay ∧ 0 ≤ delay ∧
        delay + size + 24 = 1250 / rate

theorem VariedScript.rates_ne_nil (script : VariedScript) : script.rates ≠ [] := by
  cases script <;> simp [VariedScript.rates]

theorem fastest_rate (size : ℕ) :
    luaIndex (VariedScript.cbr size).rates 5 = some (5 / 2) := rfl

theorem cbr_slot_fits {size entry : ℕ} (hsize : size ≤ cbrDefaultSize)
    (hfastest : entry = 4 → size ≤ 476) {rate : ℚ}
    (hrate : luaIndex (VariedScript.cbr size).rates (entry + 1) = some rate) :
    0 < rate ∧ (size : ℚ) + 24 ≤ 1250 / rate := by
  have hsize' : (size : ℚ) ≤ 508 := by exact_mod_cast hsize
  have hentry : entry < 5 := by
    rw [luaIndex_succ] at hrate
    exact (List.getElem?_eq_some_iff.mp hrate).1
  by_cases hlast : entry = 4
  · subst hlast
    have hroom : (size : ℚ) ≤ 476 := by exact_mod_cast hfastest rfl
    cases hrate
    constructor <;> norm_num
    linarith
  · have hslower : entry < 4 := by omega
    interval_cases entry <;> cases hrate
    all_goals
      constructor <;> norm_num
      linarith

theorem exists_fastest_batch (size : ℕ) {answers : List Answer}
    (hcount : 4 ≤ (signals answers).count true) :
    ∃ k, ∃ answer : Answer, expiriesThrough answers k = 4 ∧
      (loadSlave (.cbr size) (VariedScript.cbr size).rates answers).1.sent[k]? =
        some ((VariedScript.cbr size).batch (5 / 2) answer.draws) := by
  obtain ⟨k, answer, hanswer, -, hthrough, -⟩ :=
    exists_expiry answers (by decide : 0 < 4) hcount
  have hsent : k < (loadSlave (.cbr size) (VariedScript.cbr size).rates
      answers).1.sent.length := by
    rw [lt_length_loadSlave_sent_iff _ (VariedScript.rates_ne_nil _), hthrough]
    exact ⟨(List.getElem?_eq_some_iff.mp hanswer).1, by simp [VariedScript.rates]⟩
  obtain ⟨rate, hrate, hbatch⟩ :=
    getElem?_loadSlave_sent (.cbr size) (VariedScript.rates_ne_nil _) answers hsent hanswer
  rw [hthrough, fastest_rate] at hrate
  cases hrate
  exact ⟨k, answer, hthrough, hbatch⟩

/-- Up to the default size, the gaps are legal exactly if the frame leaves room in the
slot of the fastest entry, or the timer does not expire often enough to reach it. -/
theorem cbr_exactSlots_iff (size : ℕ) (hsize : size ≤ cbrDefaultSize)
    (answers : List Answer) :
    ExactSlots size answers ↔ size ≤ 476 ∨ (signals answers).count true < 4 := by
  constructor
  · intro hexact
    by_contra hnot
    push Not at hnot
    obtain ⟨hlarge, hcount⟩ := hnot
    obtain ⟨k, answer, hthrough, hbatch⟩ := exists_fastest_batch size hcount
    obtain ⟨rate, hrate, hpackets⟩ := hexact k _ hbatch
    rw [hthrough, fastest_rate] at hrate
    cases hrate
    obtain ⟨draw, hdraw⟩ := List.exists_mem_of_ne_nil answer.draws answer.draws_ne_nil
    obtain ⟨delay, -, hnonneg, hslot⟩ := hpackets _ (List.mem_map_of_mem hdraw)
    have hlarge' : (477 : ℚ) ≤ size := by exact_mod_cast hlarge
    norm_num at hslot
    linarith
  · intro hroom i batch hbatch
    obtain ⟨hi, -⟩ := List.getElem?_eq_some_iff.mp hbatch
    obtain ⟨hanswers, -⟩ :=
      (lt_length_loadSlave_sent_iff _ (VariedScript.rates_ne_nil _) answers i).mp hi
    obtain ⟨rate, hrate, hsent⟩ := getElem?_loadSlave_sent (.cbr size)
      (VariedScript.rates_ne_nil _) answers hi (List.getElem?_eq_getElem hanswers)
    rw [hbatch] at hsent
    cases hsent
    refine ⟨rate, hrate, ?_⟩
    intro packet hpacket
    obtain ⟨draw, -, rfl⟩ := List.mem_map.mp hpacket
    have hfastest : expiriesThrough answers i = 4 → size ≤ 476 := by
      intro hthrough
      have hle : expiriesThrough answers i ≤ (signals answers).count true := by
        rw [expiriesThrough, signals_take]
        exact (List.take_sublist _ _).count_le true
      omega
    obtain ⟨hpos, hfits⟩ := cbr_slot_fits hsize hfastest hrate
    have hadd := meanDelay_add hpos size
    exact ⟨meanDelay rate size, rfl, by linarith, hadd⟩

theorem cbr_exactSlots_60 :
    60 ≤ cbrDefaultSize ∧ ExactSlots 60 ([true, true, true, true, false].map quietAnswer) :=
  ⟨by decide, (cbr_exactSlots_iff 60 (by decide) _).mpr (by decide)⟩

/-- At the default size the fourth expiry asks for a gap of -32 bytes. -/
theorem not_cbr_exactSlots_default :
    ¬ ExactSlots cbrDefaultSize ([true, true, true, true, false].map quietAnswer) := by
  intro hexact
  obtain ⟨rate, -, hpackets⟩ := hexact 3
    ((VariedScript.cbr cbrDefaultSize).batch (5 / 2) (quietAnswer true).draws) rfl
  obtain ⟨delay, hdelay, hnonneg, -⟩ := hpackets
    { size := cbrDefaultSize, delay := some (meanDelay (5 / 2) cbrDefaultSize) }
    (List.mem_singleton_self _)
  have hgap : meanDelay (5 / 2) cbrDefaultSize = -32 := by
    norm_num [meanDelay, cbrDefaultSize]
  rw [Option.some.inj hdelay] at hgap
  linarith

end SoftwareSwitches.Workload
