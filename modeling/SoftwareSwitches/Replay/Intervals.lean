import SoftwareSwitches.Replay.Pcap
import Mathlib.Tactic.IntervalCases
import Mathlib.Tactic.Linarith
import Mathlib.Algebra.BigOperators.Group.List.Basic

/-!
# The intervals of replay-pcap2.lua

`replay` measures every delay from the first packet of the file, because the line
that moves `prev` on is commented out, and it raises the requested multiplier
before its first use.  The intervals of the file survive only where they are zero.
-/

namespace SoftwareSwitches.Replay

def timestampAt (file : List Packet) (i : ℕ) : ℕ := (file.map Packet.timestamp).getD i 0

def bytesOf (call : Call) (microseconds : ℚ) : ℚ :=
  microseconds * 1000 / call.multiplier / (8000 / call.linkSpeed)

/-- The delays set in one pass are the recorded intervals, and add up to the time since
the first packet. -/
structure KeepsIntervals (call : Call) (array : List Buf) : Prop where
  delay : ∀ buf ∈ array, 0 < buf.position → buf.delay =
    some (bytesOf call (timestampAt call.file buf.position -
      timestampAt call.file (buf.position - 1)))
  sum : ∀ i < array.length, ((array.take (i + 1)).map fun buf => buf.delay.getD 0).sum =
    bytesOf call (timestampAt call.file i - timestampAt call.file 0)

/-! ## Every delay is measured from the first packet -/

theorem Packet.timestamp_mul_lt (p : Packet) : p.timestamp * 10 ^ 3 < 2 ^ 64 := by
  have hsec := p.sec.toNat_lt
  have husec := p.usec.toNat_lt
  unfold Packet.timestamp
  omega

def passArray (call : Call) (multiplier : ℚ) : List Buf :=
  ((bufsOf call.file).take call.capacity).map
    (setDelay (timestampAt call.file 0) multiplier call.linkSpeed)

theorem getElem?_bufsOf (file : List Packet) (i : ℕ) :
    (bufsOf file)[i]? = file[i]?.map fun p =>
      { position := i, udata64 := p.timestamp, delay := none } := by
  simp [bufsOf]

theorem timestampAt_of_getElem? {file : List Packet} {i : ℕ} {p : Packet}
    (h : file[i]? = some p) : timestampAt file i = p.timestamp := by
  simp [timestampAt, h]

/-- Before every iteration the file is at its start and `prev` unset or that of the first
packet. -/
structure Rewound {call : Call} (st : Locals call) : Prop where
  start : call.reader.offset st.pcapFile = 0
  prev : st.prev = 0 ∨ st.prev = timestampAt call.file 0

theorem rewound_init (call : Call) : Rewound (Locals.init call) where
  start := call.reader.offset_newReader
  prev := Or.inl rfl

namespace Rewound

variable {call : Call} {st : Locals call}

theorem read_eq (h : Rewound st) : (call.reader.read call.capacity st.pcapFile).1 =
    (bufsOf call.file).take call.capacity := by
  rw [call.reader.read_eq, h.start, List.drop_zero]

theorem reference_eq (h : Rewound st) {bufs : List Buf}
    (hbufs : bufs = (bufsOf call.file).take call.capacity) (hne : bufs ≠ []) :
    reference st.prev bufs = timestampAt call.file 0 := by
  cases hfile : call.file with
  | nil => simp [hfile, bufsOf] at hbufs; contradiction
  | cons p file =>
      cases bufs with
      | nil => exact absurd rfl hne
      | cons first bufs =>
          have hfirst : first.udata64 = p.timestamp := by
            cases hcapacity : call.capacity with
            | zero => simp [hcapacity] at hbufs
            | succ capacity =>
                simp only [hfile, hcapacity, bufsOf, List.mapIdx_cons, List.take_succ_cons,
                  List.cons.injEq] at hbufs
                rw [hbufs.1]
          have hstart : timestampAt call.file 0 = p.timestamp := by simp [timestampAt, hfile]
          have hprev := h.prev
          rw [hstart] at hprev
          rw [reference, ← hfile, hstart]
          split_ifs with hzero
          · exact hfirst
          · exact hprev.resolve_left hzero

theorem array_eq (h : Rewound st) :
    st.array = passArray call (nextMultiplier st.count st.multiplier) := by
  rw [Locals.array, passArray, h.read_eq]
  by_cases hne : (bufsOf call.file).take call.capacity = []
  · simp [hne]
  · rw [h.reference_eq rfl hne]

theorem reference_prev (h : Rewound st) :
    reference st.prev (call.reader.read call.capacity st.pcapFile).1 = 0 ∨
      reference st.prev (call.reader.read call.capacity st.pcapFile).1 =
        timestampAt call.file 0 := by
  by_cases hne : (call.reader.read call.capacity st.pcapFile).1 = []
  · rw [hne]
    exact h.prev
  · exact Or.inr (h.reference_eq h.read_eq hne)

end Rewound

theorem rewound_replay {call : Call} (hloop : call.loop = true) (k : ℕ) :
    Rewound (replay call k).1 := by
  induction k with
  | zero => exact rewound_init call
  | succ k ih =>
      rw [replay_succ_of_loop hloop, Locals.iteration_of_loop _ hloop]
      exact ⟨call.reader.offset_reset _, ih.reference_prev⟩

theorem arrays_replay (call : Call) (k : ℕ) :
    ∀ array ∈ (replay call k).1.arrays, ∃ multiplier, array = passArray call multiplier := by
  induction k with
  | zero => simp [replay, Locals.init]
  | succ k ih =>
      intro array harray
      cases hloop : call.loop with
      | false =>
          rw [replay_of_not_loop hloop, Locals.iteration_of_not_loop _ hloop,
            (rewound_init call).array_eq] at harray
          exact ⟨_, List.mem_singleton.mp harray⟩
      | true =>
          rw [replay_succ_of_loop hloop, Locals.iteration_of_loop _ hloop,
            (rewound_replay hloop k).array_eq] at harray
          rcases List.mem_append.mp harray with hold | hnew
          · exact ih array hold
          · exact ⟨_, List.mem_singleton.mp hnew⟩

theorem first_array_mem (call : Call) (k : ℕ) :
    passArray call (nextMultiplier 0 call.multiplier) ∈ (replay call (k + 1)).1.arrays := by
  have hfirst : (Locals.init call).array =
      passArray call (nextMultiplier 0 call.multiplier) := (rewound_init call).array_eq
  cases hloop : call.loop with
  | false =>
      rw [replay_of_not_loop hloop, Locals.iteration_of_not_loop _ hloop, hfirst]
      exact List.mem_append_right _ (List.mem_singleton_self _)
  | true =>
      induction k with
      | zero =>
          rw [replay_succ_of_loop hloop, Locals.iteration_of_loop _ hloop, ← hfirst]
          exact List.mem_append_right _ (List.mem_singleton_self _)
      | succ k ih =>
          rw [replay_succ_of_loop hloop, Locals.iteration_of_loop _ hloop]
          exact List.mem_append_left _ ih

theorem nextMultiplier_zero_ne {m : ℚ} : nextMultiplier 0 m ≠ m := by
  unfold nextMultiplier
  simp only [Nat.zero_mod, if_true]
  split_ifs with hlarge
  · linarith
  · linarith

/-! ## The delays of a pass -/

/-- The product fits into 64 bits, and the later packet has the later timestamp. -/
theorem setDelay_eq (p : Packet) {prev : ℕ} (hprev : prev ≤ p.timestamp)
    (multiplier linkSpeed : ℚ) (i : ℕ) :
    setDelay prev multiplier linkSpeed
        { position := i, udata64 := p.timestamp, delay := none } =
      { position := i
        udata64 := p.timestamp
        delay := some (((p.timestamp : ℚ) - prev) * 1000 / multiplier /
          (8000 / linkSpeed)) } := by
  have hfits : (p.timestamp - prev) * 10 ^ 3 % 2 ^ 64 = (p.timestamp - prev) * 10 ^ 3 := by
    have hle : (p.timestamp - prev) * 10 ^ 3 ≤ p.timestamp * 10 ^ 3 :=
      Nat.mul_le_mul_right _ (Nat.sub_le _ _)
    exact Nat.mod_eq_of_lt (hle.trans_lt p.timestamp_mul_lt)
  have hcast : (((p.timestamp - prev) * 10 ^ 3 : ℕ) : ℚ) =
      ((p.timestamp : ℚ) - prev) * 1000 := by
    rw [Nat.cast_mul, Nat.cast_sub hprev]
    norm_num
  simp only [setDelay, if_neg (Nat.not_lt.mpr hprev), gt_iff_lt, hfits, hcast]

section Pass

variable {call : Call}

theorem length_passArray (multiplier : ℚ) :
    (passArray call multiplier).length = min call.capacity call.file.length := by
  simp [passArray, bufsOf]

theorem getElem?_passArray (hsorted : (call.file.map Packet.timestamp).Pairwise (· ≤ ·))
    (multiplier : ℚ) {i : ℕ} (hi : i < min call.capacity call.file.length) :
    (passArray call multiplier)[i]? = some
      { position := i
        udata64 := timestampAt call.file i
        delay := some (((timestampAt call.file i : ℚ) - timestampAt call.file 0) * 1000 /
          multiplier / (8000 / call.linkSpeed)) } := by
  obtain ⟨hcapacity, hlength⟩ := lt_min_iff.mp hi
  have hp : call.file[i]? = some call.file[i] := List.getElem?_eq_getElem hlength
  have hprev : timestampAt call.file 0 ≤ call.file[i].timestamp := by
    rw [← timestampAt_of_getElem? hp]
    rcases Nat.eq_zero_or_pos i with rfl | hpos
    · exact le_rfl
    · have h := List.pairwise_iff_getElem.mp hsorted 0 i (by simp; omega) (by simpa) hpos
      simpa [timestampAt, hlength, show 0 < call.file.length by omega] using h
  rw [passArray, List.getElem?_map, List.getElem?_take_of_lt hcapacity, getElem?_bufsOf, hp,
    Option.map_some, Option.map_some, setDelay_eq _ hprev, timestampAt_of_getElem? hp]

def Simultaneous (call : Call) : Prop :=
  ∀ i < min call.capacity call.file.length, timestampAt call.file i = timestampAt call.file 0

@[simp] theorem bytesOf_zero (call : Call) : bytesOf call 0 = 0 := by simp [bytesOf]

theorem keepsIntervals_passArray (hsorted : (call.file.map Packet.timestamp).Pairwise (· ≤ ·))
    (hsame : Simultaneous call) (multiplier : ℚ) :
    KeepsIntervals call (passArray call multiplier) := by
  have hbuf : ∀ buf ∈ passArray call multiplier,
      buf.position < min call.capacity call.file.length ∧ buf.delay = some 0 := by
    intro buf hmem
    obtain ⟨i, hi⟩ := List.mem_iff_getElem?.mp hmem
    have hlt : i < min call.capacity call.file.length := by
      rw [← length_passArray multiplier]
      exact (List.getElem?_eq_some_iff.mp hi).1
    rw [getElem?_passArray hsorted multiplier hlt, hsame i hlt] at hi
    cases hi
    exact ⟨hlt, by simp⟩
  constructor
  case delay =>
    intro buf hmem hpos
    obtain ⟨hlt, hdelay⟩ := hbuf buf hmem
    rw [hdelay, hsame buf.position hlt, hsame (buf.position - 1) (by omega), sub_self,
      bytesOf_zero]
  case sum =>
    intro i hi
    rw [length_passArray] at hi
    rw [hsame i hi, sub_self, bytesOf_zero]
    apply List.sum_eq_zero
    intro delay hdelay
    obtain ⟨buf, hmem, rfl⟩ := List.mem_map.mp hdelay
    rw [(hbuf buf (List.mem_of_mem_take hmem)).2, Option.getD_some]

/-- At another multiplier than the requested one, and measured from the first packet,
an interval after simultaneous packets is right only if it is zero. -/
theorem simultaneous_of_keepsIntervals
    (hsorted : (call.file.map Packet.timestamp).Pairwise (· ≤ ·))
    (hspeed : 0 < call.linkSpeed) {multiplier : ℚ} (hne : multiplier ≠ call.multiplier)
    (hkeeps : KeepsIntervals call (passArray call multiplier)) : Simultaneous call := by
  intro i
  induction i with
  | zero => exact fun _ => rfl
  | succ i ih =>
      intro hi
      have hbuf := getElem?_passArray hsorted multiplier hi
      have hdelay := hkeeps.delay _ (List.mem_of_getElem? hbuf) (Nat.succ_pos i)
      simp only [Nat.add_sub_cancel, ih (by omega), Option.some.injEq, bytesOf] at hdelay
      by_contra hlater
      have hinterval : ((timestampAt call.file (i + 1) : ℚ) - timestampAt call.file 0) * 1000
          ≠ 0 := by
        have hcast : (timestampAt call.file (i + 1) : ℚ) ≠ timestampAt call.file 0 := by
          exact_mod_cast hlater
        exact mul_ne_zero (sub_ne_zero.mpr hcast) (by norm_num)
      have hslot : 8000 / call.linkSpeed ≠ 0 := (div_pos (by norm_num) hspeed).ne'
      rw [div_left_inj' hslot, div_eq_mul_inv, div_eq_mul_inv,
        mul_right_inj' hinterval, inv_inj] at hdelay
      exact hne hdelay

end Pass

/-- The recorded intervals are kept exactly if the packets that fit into the array were
all recorded at the same time. -/
theorem replay_keepsIntervals_iff (call : Call)
    (hsorted : (call.file.map Packet.timestamp).Pairwise (· ≤ ·))
    (hspeed : 0 < call.linkSpeed) (k : ℕ) (hk : 0 < k) :
    (∀ array ∈ (replay call k).1.arrays, KeepsIntervals call array) ↔
      Simultaneous call := by
  constructor
  · intro hkeeps
    obtain ⟨k, rfl⟩ := Nat.exists_eq_add_of_lt hk
    have hfirst := hkeeps _ (first_array_mem call (0 + k))
    exact simultaneous_of_keepsIntervals hsorted hspeed nextMultiplier_zero_ne hfirst
  · intro hsame array harray
    obtain ⟨multiplier, rfl⟩ := arrays_replay call k array harray
    exact keepsIntervals_passArray hsorted hsame multiplier

theorem replay_keepsIntervals_simultaneous :
    0 < (callOn [⟨1, 0⟩, ⟨1, 0⟩] true 1).linkSpeed ∧
      ∀ array ∈ (replay (callOn [⟨1, 0⟩, ⟨1, 0⟩] true 1) 3).1.arrays,
        KeepsIntervals (callOn [⟨1, 0⟩, ⟨1, 0⟩] true 1) array := by
  have hspeed : 0 < (callOn [⟨1, 0⟩, ⟨1, 0⟩] true 1).linkSpeed := by decide +kernel
  have hsame : Simultaneous (callOn [⟨1, 0⟩, ⟨1, 0⟩] true 1) := by
    intro i hi
    have hlt : i < 2 := (lt_min_iff.mp hi).2
    interval_cases i <;> rfl
  exact ⟨hspeed,
    (replay_keepsIntervals_iff _ (by decide) hspeed 3 (by decide)).mpr hsame⟩

/-- Two packets a millisecond apart, replayed at the speed of the file, are set 101 times
closer. -/
theorem not_replay_keepsIntervals_millisecond :
    ¬ ∀ array ∈ (replay (callOn (millisecondFile 2) false 1) 1).1.arrays,
      KeepsIntervals (callOn (millisecondFile 2) false 1) array := by
  intro hkeeps
  have hpass := hkeeps
    [{ position := 0, udata64 := 1000000, delay := some 0 },
      { position := 1, udata64 := 1001000, delay := some (1250000 / 101) }]
    (by decide +kernel)
  have hdelay := hpass.delay
    { position := 1, udata64 := 1001000, delay := some (1250000 / 101) } (by simp)
    (by decide)
  exact absurd hdelay (by decide +kernel)

end SoftwareSwitches.Replay
