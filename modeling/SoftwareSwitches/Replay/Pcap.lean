import Mathlib.Algebra.Field.Rat
import Mathlib.Data.List.Infix
import Mathlib.Data.Nat.Basic

/-!
# replay-pcap2.lua

One iteration of `replay` reads a batch of packets into the buffer array, sets a
delay on each of them, rewinds the file or leaves the loop, and only then hands
the array over.  The file is rewound after every batch, not at its end, and a run
that does not loop is left before anything has been handed over.
-/

namespace SoftwareSwitches.Replay

structure Packet where
  sec : UInt32
  usec : UInt32
deriving DecidableEq

/-- Microseconds, as the reader stores them in the mbuf. -/
def Packet.timestamp (p : Packet) : ℕ := p.sec.toNat * 10 ^ 6 + p.usec.toNat

structure Buf where
  position : ℕ
  udata64 : ℕ
  /-- Argument of `setDelay`. -/
  delay : Option ℚ
deriving DecidableEq

def bufsOf (file : List Packet) : List Buf :=
  file.mapIdx fun i p => { position := i, udata64 := p.timestamp, delay := none }

/-- The pcap reader of MoonGen: `read` puts the next packets of the file into an array
of the given capacity, `reset` goes back to the first one. -/
structure PcapReader (file : List Packet) where
  Handle : Type
  newReader : Handle
  read : ℕ → Handle → List Buf × Handle
  reset : Handle → Handle
  offset : Handle → ℕ
  offset_newReader : offset newReader = 0
  read_eq : ∀ capacity h, (read capacity h).1 =
    ((bufsOf file).drop (offset h)).take capacity
  offset_read : ∀ capacity h, offset (read capacity h).2 =
    offset h + (read capacity h).1.length
  offset_reset : ∀ h, offset (reset h) = 0

/-- Arguments of `replay`, with what it learns of the array and the link. -/
structure Call where
  file : List Packet
  reader : PcapReader file
  capacity : ℕ
  loop : Bool
  rateLimiter : Bool
  multiplier : ℚ
  linkSpeed : ℚ

/-- Variables of `replay`, the contents of the array after every iteration's delays
have been set, and the buffers handed to the queue or the rate limiter. -/
structure Locals (call : Call) where
  count : ℕ
  multiplier : ℚ
  prev : ℕ
  pcapFile : call.reader.Handle
  arrays : List (List Buf)
  handed : List Buf

def Locals.init (call : Call) : Locals call where
  count := 0
  multiplier := call.multiplier
  prev := 0
  pcapFile := call.reader.newReader
  arrays := []
  handed := []

def nextMultiplier (count : ℕ) (multiplier : ℚ) : ℚ :=
  let raised := if count % 1000000 = 0 then multiplier + 100 else multiplier
  if raised > 1000 then 10 else raised

def reference (prev : ℕ) : List Buf → ℕ
  | [] => prev
  | first :: _ => if prev = 0 then first.udata64 else prev

/-- The difference of the timestamps is a 64-bit product until `tonumber`. -/
def setDelay (prev : ℕ) (multiplier linkSpeed : ℚ) (buf : Buf) : Buf :=
  let ts := if prev > buf.udata64 then prev else buf.udata64
  let delay : ℕ := (ts - prev) * 10 ^ 3 % 2 ^ 64
  { buf with delay := some (delay / multiplier / (8000 / linkSpeed)) }

/-- The loop body; the flag tells that it has been left. -/
def Locals.iteration {call : Call} (st : Locals call) : Locals call × Bool :=
  let multiplier := nextMultiplier st.count st.multiplier
  let (bufs, pcapFile) := call.reader.read call.capacity st.pcapFile
  let n := bufs.length
  let prev := reference st.prev bufs
  let bufs := bufs.map (setDelay prev multiplier call.linkSpeed)
  let arrays := st.arrays ++ [bufs]
  if call.loop then
    -- `sendN` takes the first `n` buffers, `sendWithDelay` the whole array
    let sent := if call.rateLimiter then bufs.take n else bufs
    ({ count := st.count + 1, multiplier, prev, pcapFile := call.reader.reset pcapFile,
       arrays, handed := st.handed ++ sent }, false)
  else ({ st with multiplier, prev, pcapFile, arrays }, true)

def replay (call : Call) : ℕ → Locals call × Bool
  | 0 => (.init call, false)
  | k + 1 =>
    match replay call k with
    | (st, true) => (st, true)
    | (st, false) => st.iteration

def Locals.handedPositions {call : Call} (st : Locals call) : List ℕ :=
  st.handed.map Buf.position

/-- Without the flag every packet is handed over once, in order, and `replay` returns;
with it the file is handed over again and again. -/
def ReplaysFile (call : Call) : Prop :=
  (call.loop = false → ∃ k, (replay call k).2 = true ∧
    (replay call k).1.handedPositions = List.range call.file.length) ∧
  (call.loop = true → ∀ k, ∃ rounds, (replay call k).1.handedPositions <+:
    (List.replicate rounds (List.range call.file.length)).flatten)

/-! ## What a run hands over -/

theorem map_position_bufsOf (file : List Packet) :
    (bufsOf file).map Buf.position = List.range file.length := by
  apply List.ext_getElem <;> simp [bufsOf]

@[simp] theorem position_setDelay (prev : ℕ) (multiplier linkSpeed : ℚ) (buf : Buf) :
    (setDelay prev multiplier linkSpeed buf).position = buf.position := rfl

theorem map_position_read (call : Call) {h : call.reader.Handle}
    (hstart : call.reader.offset h = 0) :
    (call.reader.read call.capacity h).1.map Buf.position =
      List.range (min call.capacity call.file.length) := by
  rw [call.reader.read_eq, hstart, List.drop_zero, List.map_take, map_position_bufsOf,
    List.take_range]

namespace Locals

variable {call : Call} (st : Locals call)

def array : List Buf :=
  let bufs := (call.reader.read call.capacity st.pcapFile).1
  bufs.map (setDelay (reference st.prev bufs) (nextMultiplier st.count st.multiplier)
    call.linkSpeed)

theorem iteration_of_loop (hloop : call.loop = true) :
    st.iteration =
      ({ count := st.count + 1
         multiplier := nextMultiplier st.count st.multiplier
         prev := reference st.prev (call.reader.read call.capacity st.pcapFile).1
         pcapFile := call.reader.reset (call.reader.read call.capacity st.pcapFile).2
         arrays := st.arrays ++ [st.array]
         handed := st.handed ++ st.array }, false) := by
  cases hlimiter : call.rateLimiter with
  | false => simp [iteration, hloop, hlimiter, array]
  | true => simp [iteration, hloop, hlimiter, array]

theorem iteration_of_not_loop (hloop : call.loop = false) :
    st.iteration =
      ({ count := st.count
         multiplier := nextMultiplier st.count st.multiplier
         prev := reference st.prev (call.reader.read call.capacity st.pcapFile).1
         pcapFile := (call.reader.read call.capacity st.pcapFile).2
         arrays := st.arrays ++ [st.array]
         handed := st.handed }, true) := by
  simp [iteration, hloop, array]

theorem map_position_array (hstart : call.reader.offset st.pcapFile = 0) :
    st.array.map Buf.position = List.range (min call.capacity call.file.length) := by
  rw [← map_position_read call hstart]
  simp [array, Function.comp_def]

end Locals

theorem replay_of_not_loop {call : Call} (hloop : call.loop = false) (k : ℕ) :
    replay call (k + 1) = (Locals.init call).iteration := by
  induction k with
  | zero => rfl
  | succ k ih =>
      rw [replay, ih, Locals.iteration_of_not_loop _ hloop]

theorem replay_running {call : Call} (hloop : call.loop = true) (k : ℕ) :
    (replay call k).2 = false := by
  induction k with
  | zero => rfl
  | succ k ih =>
      rw [replay]
      split
      case h_1 st hst =>
        rw [hst] at ih
        exact absurd ih (by simp)
      case h_2 st hst => rw [Locals.iteration_of_loop _ hloop]

theorem replay_succ_of_loop {call : Call} (hloop : call.loop = true) (k : ℕ) :
    replay call (k + 1) = (replay call k).1.iteration := by
  have hst : replay call k = ((replay call k).1, false) :=
    Prod.ext rfl (replay_running hloop k)
  rw [replay, hst]

theorem replay_of_loop {call : Call} (hloop : call.loop = true) (k : ℕ) :
    call.reader.offset (replay call k).1.pcapFile = 0 ∧
      (replay call k).1.handedPositions =
        (List.replicate k (List.range (min call.capacity call.file.length))).flatten := by
  induction k with
  | zero => exact ⟨call.reader.offset_newReader, rfl⟩
  | succ k ih =>
      obtain ⟨hstart, hhanded⟩ := ih
      rw [replay_succ_of_loop hloop, Locals.iteration_of_loop _ hloop]
      refine ⟨call.reader.offset_reset _, ?_⟩
      rw [Locals.handedPositions] at hhanded ⊢
      rw [List.map_append, hhanded, Locals.map_position_array _ hstart,
        List.replicate_succ', List.flatten_append, List.flatten_singleton]

theorem not_prefix_of_lt {capacity length : ℕ} (hpos : 0 < capacity)
    (hlt : capacity < length) (rounds : ℕ) :
    ¬ (List.replicate 2 (List.range capacity)).flatten <+:
      (List.replicate rounds (List.range length)).flatten := by
  rintro ⟨rest, hrest⟩
  cases rounds with
  | zero =>
      have hlength := congrArg List.length hrest
      simp at hlength
      omega
  | succ rounds =>
      have hnext := congrArg (fun l => l[capacity]?) hrest
      simp [List.replicate_succ, List.getElem?_append, hlt, hpos] at hnext
      omega

/-- A file is replayed exactly if it fits into the array and is looped, up to the
degenerate cases in which there is nothing to hand over. -/
theorem replaysFile_iff (call : Call) :
    ReplaysFile call ↔
      (call.loop = false → call.file = []) ∧
      (call.loop = true → call.file.length ≤ call.capacity ∨ call.capacity = 0) := by
  apply and_congr
  · apply imp_congr_right
    intro hloop
    constructor
    · rintro ⟨k, hreturned, hhanded⟩
      cases k with
      | zero => exact absurd hreturned (by simp [replay])
      | succ k =>
          rw [replay_of_not_loop hloop, Locals.iteration_of_not_loop _ hloop] at hhanded
          have hlength := congrArg List.length hhanded
          simpa [Locals.handedPositions, Locals.init, eq_comm] using hlength
    · intro hfile
      refine ⟨1, ?_, ?_⟩
      · rw [replay_of_not_loop hloop, Locals.iteration_of_not_loop _ hloop]
      · have hrange : List.range call.file.length = [] := by simp [hfile]
        rw [replay_of_not_loop hloop, Locals.iteration_of_not_loop _ hloop, hrange]
        rfl
  · apply imp_congr_right
    intro hloop
    constructor
    · intro hinitial
      by_contra hnot
      push Not at hnot
      obtain ⟨hlt, hpos⟩ := hnot
      obtain ⟨rounds, htwo⟩ := hinitial 2
      rw [(replay_of_loop hloop 2).2, Nat.min_eq_left hlt.le] at htwo
      exact not_prefix_of_lt (Nat.pos_of_ne_zero hpos) hlt rounds htwo
    · intro hfits k
      rw [(replay_of_loop hloop k).2]
      rcases hfits with hle | hzero
      · exact ⟨k, by rw [Nat.min_eq_right hle]⟩
      · exact ⟨0, by simp [hzero]⟩

def offsetReader (file : List Packet) : PcapReader file where
  Handle := ℕ
  newReader := 0
  read capacity offset :=
    let bufs := ((bufsOf file).drop offset).take capacity
    (bufs, offset + bufs.length)
  reset _ := 0
  offset := id
  offset_newReader := rfl
  read_eq _ _ := rfl
  offset_read _ _ := rfl
  offset_reset _ := rfl

def millisecondFile (length : ℕ) : List Packet :=
  (List.range length).map fun i => { sec := 1, usec := UInt32.ofNat (1000 * i) }

/-- The call `master` makes, on a 10 Gbit/s link and with the default array of MoonGen. -/
def callOn (file : List Packet) (loop : Bool) (multiplier : ℚ) : Call where
  file := file
  reader := offsetReader file
  capacity := 63
  loop := loop
  rateLimiter := 0 < multiplier
  multiplier := multiplier
  linkSpeed := 10000

/-- Nothing is ever handed over without the flag, and with it the second batch starts
from the first packet again. -/
theorem not_replaysFile_callOn :
    ¬ ReplaysFile (callOn (millisecondFile 1) false 0) ∧
      ¬ ReplaysFile (callOn (millisecondFile 64) true 0) := by
  constructor
  · rintro ⟨honce, -⟩
    obtain ⟨k, hreturned, hhanded⟩ := honce rfl
    cases k with
    | zero => exact absurd hreturned (by decide)
    | succ k =>
        rw [replay_of_not_loop rfl] at hhanded
        exact absurd hhanded (by decide)
  · rintro ⟨-, hforever⟩
    obtain ⟨rounds, htwo⟩ := hforever rfl 2
    rw [(replay_of_loop rfl 2).2] at htwo
    exact not_prefix_of_lt (by decide) (by decide) rounds htwo

end SoftwareSwitches.Replay
