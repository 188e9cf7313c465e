import SoftwareSwitches.Lib.Truncation

/-!
# The per-switch measurement scripts

Every switch directory has a `cbr.sh`, an `imix.sh` and a `poisson.sh`.  Each
starts its switch, attaches perf to it, and starts MoonGen through one of the
wrapper scripts in `moongen/`.  The wrappers parse their command line and run a
MoonGen program with a rate and, except for IMIX, a frame size.

Rates and sizes on the command line are natural numbers; an argument that is
missing or empty is `none` and replaced by the script's default.  Bash computes
in 64-bit integers that wrap around, `bc` with decimals of any length.
-/

namespace SoftwareSwitches.Workload

open SoftwareSwitches.Lib.Truncation

inductive Switch where
  | bess
  | fastclick
  | ovsDpdk
  | snabb
  | t4p4s
  | vpp
  deriving DecidableEq, Repr

inductive Pattern where
  | cbr
  | imix
  | poisson
  deriving DecidableEq, Repr

/-! ## MoonGen and its wrapper scripts -/

/-- `latency-test.lua`, `imix.lua` and `l2-poisson-load-latency.lua`. -/
inductive Program where
  | latencyTest
  | imix
  | l2PoissonLoadLatency
  deriving DecidableEq, Repr

/-- A MoonGen command line; `size` is `none` where no `-s` is given. -/
structure MoonGenCall where
  program : Program
  txDev : ℕ
  rxDev : ℕ
  rate : ℚ
  size : Option ℚ
  deriving DecidableEq, Repr

/-- `latency-test.sh TX_RATE PKT_SIZE`; with fewer arguments it prints its usage
and exits. -/
def latencyTestSh : List ℚ → Option MoonGenCall
  | rate :: size :: _ => some ⟨.latencyTest, 0, 1, rate, some size⟩
  | _ => none

inductive Opt where
  | r (arg : ℚ)
  | s (arg : ℚ)

/-- `imix-test.sh` accepts `-r` only; any other option prints the usage and
exits. -/
def imixTestSh (opts : List Opt) : Option MoonGenCall := do
  let rate ← opts.foldlM (fun _ opt =>
    match opt with
    | .r arg => some arg
    | .s _ => (none : Option ℚ)) 10000
  return ⟨.imix, 0, 1, rate, none⟩

def poissonTestSh (opts : List Opt) : Option MoonGenCall := do
  let (rate, size) := opts.foldl (fun (rate, size) opt =>
    match opt with
    | .r arg => (arg, size)
    | .s arg => (rate, arg)) ((2, 60) : ℚ × ℚ)
  return ⟨.l2PoissonLoadLatency, 0, 1, rate, some size⟩

/-! ## The scripts of the switches -/

/-- What a measurement script does: how it brings the switch up, where perf
writes, and the MoonGen command line it ends up with. -/
structure Experiment where
  switchUp : List String
  outFile : String
  call : Option MoonGenCall

def bashInt (n : ℤ) : ℤ := Int.bmod n (2 ^ 64)

/-- `r` of every `cbr.sh`: the frame rate that fills `rate` on the wire.  A division by zero,
where `size + 20` wraps around to it, leaves `r` empty. -/
def cbrRate (rate size : ℕ) : Option ℤ :=
  let divisor := bashInt (size + 20)
  if divisor = 0 then none else some (bashInt ((bashInt (rate * size)).tdiv divisor))

def imixRate (rate : ℕ) : ℚ := truncate 2 ((rate : ℚ) * 4242 / 4482)

/-- `r` of every `poisson.sh`, in Mpps, as `bc` computes it with `scale=2`. -/
def poissonRate (rate size : ℕ) : ℚ := truncate 2 (truncate 2 ((rate : ℚ) / (size + 20)) / 8)

/-- `s` of `cbr.sh` and `poisson.sh`: MoonGen sizes exclude the CRC. -/
def frameSize (size : ℕ) : ℤ := bashInt (size - 4)

def cbrSh (switchUp : List String) (tag : String) (rate size freq : Option ℕ) :
    Experiment :=
  let rate := rate.getD 10000
  let size := size.getD 60
  let freq := freq.getD 100
  { switchUp
    outFile := s!"{tag}-{rate}-{size}-{freq}.csv"
    call := do
      let r ← cbrRate rate size
      latencyTestSh [(r : ℚ), (frameSize size : ℚ)] }

def imixSh (switchUp : List String) (tag : String) (rate freq : Option ℕ) :
    Experiment :=
  let rate := rate.getD 10000
  let freq := freq.getD 100
  { switchUp
    outFile := s!"{tag}-imix-{rate}-{freq}.csv"
    call := imixTestSh [.r (imixRate rate)] }

def poissonSh (switchUp : List String) (tag : String) (rate size freq : Option ℕ) :
    Experiment :=
  let rate := rate.getD 10000
  let size := size.getD 64
  let freq := freq.getD 100
  { switchUp
    outFile := s!"{tag}-poisson-{rate}-{size}-{freq}.csv"
    call := poissonTestSh [.r (poissonRate rate size), .s (frameSize size)] }

def bessUp : List String := ["./start_bess.sh p2p"]
def fastclickUp : List String := ["./fastclick-p2p.sh"]
def ovsUp : List String := ["./ovs-p2p.sh"]
def snabbUp : List String := ["./start-snabb.sh p2p"]
def t4p4sUp : List String := ["./start_t4p4s.sh p2p"]
def vppUp : List String := ["./startup_vpp.sh p2p", "./vppctl_p2p.sh l2patch"]

def cbr : Switch → Option ℕ → Option ℕ → Option ℕ → Experiment
  | .bess => cbrSh bessUp "bess"
  | .fastclick => cbrSh fastclickUp "fastclick"
  | .ovsDpdk => cbrSh ovsUp "ovs"
  | .snabb => cbrSh snabbUp "snabb"
  | .t4p4s => cbrSh t4p4sUp "t4p4s"
  | .vpp => cbrSh vppUp "vpp"

def imix : Switch → Option ℕ → Option ℕ → Experiment
  | .bess => imixSh bessUp "bess"
  | .fastclick => imixSh fastclickUp "fastclick"
  | .ovsDpdk => imixSh ovsUp "ovs"
  | .snabb => imixSh snabbUp "snabb"
  | .t4p4s => imixSh t4p4sUp "t4p4s"
  | .vpp => imixSh vppUp "vpp"

/-- `ovs-dpdk/poisson.sh` computes `r` and `s` like its siblings, but starts
`imix-test.sh` and hands it `r` only. -/
def ovsPoisson (rate size freq : Option ℕ) : Experiment :=
  let rate := rate.getD 10000
  let size := size.getD 64
  let freq := freq.getD 100
  { switchUp := ovsUp
    outFile := s!"ovs-poisson-{rate}-{size}-{freq}.csv"
    call := imixTestSh [.r (poissonRate rate size)] }

def poisson : Switch → Option ℕ → Option ℕ → Option ℕ → Experiment
  | .bess => poissonSh bessUp "bess"
  | .fastclick => poissonSh fastclickUp "fastclick"
  | .ovsDpdk => ovsPoisson
  | .snabb => poissonSh snabbUp "snabb"
  | .t4p4s => poissonSh t4p4sUp "t4p4s"
  | .vpp => poissonSh vppUp "vpp"

def experiment (sw : Switch) (p : Pattern) (rate size freq : Option ℕ) : Experiment :=
  match p with
  | .cbr => cbr sw rate size freq
  | .imix => imix sw rate freq
  | .poisson => poisson sw rate size freq

/-! ## The MoonGen command line of each pattern -/

theorem call_cbr (sw : Switch) (rate size freq : Option ℕ) :
    (experiment sw .cbr rate size freq).call =
      (cbrRate (rate.getD 10000) (size.getD 60)).map fun r =>
        ⟨.latencyTest, 0, 1, r, some (frameSize (size.getD 60))⟩ := by
  cases sw <;> cases hr : cbrRate (rate.getD 10000) (size.getD 60) <;>
    simp [experiment, cbr, cbrSh, hr, latencyTestSh]

theorem call_imix (sw : Switch) (rate size freq : Option ℕ) :
    (experiment sw .imix rate size freq).call =
      some ⟨.imix, 0, 1, imixRate (rate.getD 10000), none⟩ := by
  cases sw <;> rfl

theorem call_poisson {sw : Switch} (hsw : sw ≠ .ovsDpdk) (rate size freq : Option ℕ) :
    (experiment sw .poisson rate size freq).call =
      some ⟨.l2PoissonLoadLatency, 0, 1, poissonRate (rate.getD 10000) (size.getD 64),
        some (frameSize (size.getD 64))⟩ := by
  cases sw with
  | ovsDpdk => exact absurd rfl hsw
  | bess | fastclick | snabb | t4p4s | vpp => rfl

theorem call_poisson_ovsDpdk (rate size freq : Option ℕ) :
    (experiment .ovsDpdk .poisson rate size freq).call =
      some ⟨.imix, 0, 1, poissonRate (rate.getD 10000) (size.getD 64), none⟩ := rfl

/-- Two switches are offered the same load by the scripts of a pattern, except
that `ovs-dpdk/poisson.sh` differs from every other `poisson.sh`. -/
theorem same_call_iff (p : Pattern) (a b : Switch) (rate size freq freq' : Option ℕ) :
    (experiment a p rate size freq).call = (experiment b p rate size freq').call ↔
      (p = .poisson → (a = .ovsDpdk ↔ b = .ovsDpdk)) := by
  cases p with
  | cbr => simp [call_cbr]
  | imix => simp [call_imix]
  | poisson =>
      by_cases ha : a = .ovsDpdk <;> by_cases hb : b = .ovsDpdk
      · subst ha hb
        simp [call_poisson_ovsDpdk]
      · subst ha
        simp [call_poisson_ovsDpdk, call_poisson hb, hb]
      · subst hb
        simp [call_poisson_ovsDpdk, call_poisson ha, ha]
      · simp [call_poisson ha, call_poisson hb, ha, hb]

/-- At 10 Gbit/s and 64-byte frames OVS-DPDK is offered an IMIX load of 14.88
Mbit/s where BESS is offered a Poisson load of 14.88 Mpps. -/
theorem poisson_calls_differ :
    (experiment .ovsDpdk .poisson (some 10000) (some 64) none).call ≠
      (experiment .bess .poisson (some 10000) (some 64) none).call := by
  rw [call_poisson_ovsDpdk, call_poisson (by decide)]
  simp

end SoftwareSwitches.Workload
