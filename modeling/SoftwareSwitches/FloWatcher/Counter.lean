import SoftwareSwitches.Lib.BinaryRounding
import SoftwareSwitches.Lib.Execution
import Mathlib.Data.List.Nodup
import Mathlib.Data.List.Pairwise
import Mathlib.Data.List.Range

/-!
# The packet counter of FloWatcher-DPDK

`lcore_main` polls a receive queue, adds the size of each burst to the global
`re` and frees the buffers; `timer_cb`, on the master lcore, reads `re` once a
period and prints the total and its increase.  The two run side by side without
a lock.

A state holds the program counter of both threads, so a run may stop or switch
threads at any access to `re`: the addition is a load and a store, and freeing a
burst takes one step for each buffer.
-/

namespace SoftwareSwitches.FloWatcher

open SoftwareSwitches.Lib.BinaryRounding
open SoftwareSwitches.Lib.SignificantDigits (roundHalfEven abs_roundHalfEven_sub_le)
open SoftwareSwitches.Lib.Execution

/-- A received packet, numbered in the order of delivery. -/
abbrev Mbuf := ℕ

def burstSize : ℕ := 256

inductive LcorePc where
  | poll
  | received (bufs : List Mbuf)
  | loaded (bufs : List Mbuf) (value : ℕ)
  | freeing (bufs : List Mbuf)

inductive TimerPc where
  | idle
  | gotStats (imissed : ℕ)
  | gotTotal (imissed : ℕ) (j : ℚ)
  | printed (j : ℚ)

/-- The values `timer_cb` hands to `printf` for one line. -/
structure Line where
  rate : ℚ
  total : ℚ
  dropped : ℕ

structure State where
  /-- Packets the NIC has put into its ring so far, and those still there. -/
  delivered : ℕ
  ring : List Mbuf
  imissed : ℕ
  lcore : LcorePc
  /-- Everything `rte_eth_rx_burst` has returned and everything freed. -/
  returned : List Mbuf
  freed : List Mbuf
  re : ℕ
  timer : TimerPc
  old : ℚ
  lines : List Line

def init : State where
  delivered := 0
  ring := []
  imissed := 0
  lcore := .poll
  returned := []
  freed := []
  re := 0
  timer := .idle
  old := 0
  lines := []

inductive Action where
  | deliver (count : ℕ)
  | miss
  | burst (nbRx : ℕ)
  | lcore
  | timer

abbrev double (x : ℚ) : ℚ := roundBits 53 x

def lcoreStep (s : State) : Option State :=
  match s.lcore with
  | .poll => none
  | .received bufs => some { s with lcore := .loaded bufs s.re }
  | .loaded bufs value =>
    some { s with re := (value + bufs.length) % 2 ^ 64, lcore := .freeing bufs }
  | .freeing [] => some { s with lcore := .poll }
  | .freeing (buf :: bufs) =>
    some { s with freed := s.freed ++ [buf], lcore := .freeing bufs }

def timerStep (s : State) : State :=
  match s.timer with
  | .idle => { s with timer := .gotStats s.imissed }
  | .gotStats imissed => { s with timer := .gotTotal imissed (double s.re) }
  | .gotTotal imissed j =>
    { s with
      lines := s.lines ++ [⟨double (double (j - s.old) / 1000000), j, imissed⟩]
      timer := .printed j }
  | .printed j => { s with old := j, timer := .idle }

def step (s : State) : Action → Option State
  | .deliver count =>
    some { s with
      delivered := s.delivered + count
      ring := s.ring ++ List.range' s.delivered count }
  | .miss => some { s with imissed := s.imissed + 1 }
  | .burst nbRx =>
    match s.lcore with
    | .poll =>
      if nbRx ≤ burstSize ∧ nbRx ≤ s.ring.length then
        some { s with
          ring := s.ring.drop nbRx
          returned := s.returned ++ s.ring.take nbRx
          lcore := if nbRx = 0 then .poll else .received (s.ring.take nbRx) }
      else none
    | _ => none
  | .lcore => lcoreStep s
  | .timer => some (timerStep s)

/-! ## What has been printed -/

def lastTotal (lines : List Line) : ℚ := (lines.getLast?.map Line.total).getD 0

@[simp] theorem lastTotal_append (lines : List Line) (line : Line) :
    lastTotal (lines ++ [line]) = line.total := by
  simp [lastTotal]

/-- What `%.2lf` shows of the rate. -/
def Line.shownRate (line : Line) : ℚ := (roundHalfEven (100 * line.rate) : ℚ) / 100

def increases : ℚ → List ℚ → List ℚ
  | _, [] => []
  | earlier, total :: totals => (total - earlier) :: increases total totals

theorem increases_append (earlier : ℚ) (totals : List ℚ) (total : ℚ) :
    increases earlier (totals ++ [total]) =
      increases earlier totals ++ [total - totals.getLastD earlier] := by
  induction totals generalizing earlier with
  | nil => rfl
  | cons first rest ih =>
      rw [List.cons_append, increases, ih, List.getLastD_cons, increases, List.cons_append]

theorem sum_increases (earlier : ℚ) (totals : List ℚ) :
    (increases earlier totals).sum = totals.getLastD earlier - earlier := by
  induction totals generalizing earlier with
  | nil => simp [increases]
  | cons first rest ih =>
      rw [increases, List.sum_cons, ih, List.getLastD_cons]
      ring

theorem lastTotal_eq (lines : List Line) :
    lastTotal lines = (lines.map Line.total).getLastD 0 := by
  simp [lastTotal, List.getLastD_eq_getLast?, List.getLast?_map]

/-- Each rate belongs to the increase of the total since the line before, no increase is
negative, and no total is above a later one. -/
structure Consistent (lines : List Line) : Prop where
  rates : lines.map Line.rate =
    (increases 0 (lines.map Line.total)).map fun packets => double (packets / 1000000)
  nonneg : ∀ packets ∈ increases 0 (lines.map Line.total), 0 ≤ packets
  mono : (lines.map Line.total).Pairwise (· ≤ ·)
  le_last : ∀ line ∈ lines, line.total ≤ lastTotal lines

theorem consistent_nil : Consistent [] := by
  constructor <;> simp [increases]

theorem Consistent.append {lines : List Line} (h : Consistent lines) {line : Line}
    (hrate : line.rate = double ((line.total - lastTotal lines) / 1000000))
    (hle : lastTotal lines ≤ line.total) : Consistent (lines ++ [line]) := by
  have hincreases : increases 0 ((lines ++ [line]).map Line.total) =
      increases 0 (lines.map Line.total) ++ [line.total - lastTotal lines] := by
    rw [List.map_append, List.map_singleton, increases_append, lastTotal_eq]
  constructor
  case rates =>
    rw [hincreases, List.map_append, h.rates, List.map_append, List.map_singleton,
      List.map_singleton, hrate]
  case nonneg =>
    intro packets hpackets
    rw [hincreases] at hpackets
    rcases List.mem_append.mp hpackets with hold | hnew
    · exact h.nonneg packets hold
    · rw [List.mem_singleton.mp hnew]
      exact sub_nonneg.mpr hle
  case mono =>
    rw [List.map_append, List.pairwise_append]
    refine ⟨h.mono, by simp, ?_⟩
    intro a ha b hb
    obtain ⟨earlier, hearlier, rfl⟩ := List.mem_map.mp ha
    simp only [List.map_cons, List.map_nil, List.mem_singleton] at hb
    subst hb
    exact (h.le_last earlier hearlier).trans hle
  case le_last =>
    intro other hother
    rw [lastTotal_append]
    rcases List.mem_append.mp hother with hold | hnew
    · exact (h.le_last other hold).trans hle
    · rw [List.mem_singleton.mp hnew]

theorem abs_double_mul_sub_le {packets : ℚ} (hpackets : 0 ≤ packets) :
    |double (packets / 1000000) * 1000000 - packets| ≤ packets / 2 ^ 53 := by
  have herror := abs_roundBits_sub_le 53 (packets / 1000000)
  have hscale : double (packets / 1000000) * 1000000 - packets =
      (double (packets / 1000000) - packets / 1000000) * 1000000 := by ring
  rw [abs_of_nonneg (show 0 ≤ packets / 1000000 by positivity)] at herror
  rw [hscale, abs_mul, abs_of_pos (show (0 : ℚ) < 1000000 by norm_num)]
  calc |double (packets / 1000000) - packets / 1000000| * 1000000
      ≤ 2 ^ (-((53 : ℕ) : ℤ)) * (packets / 1000000) * 1000000 :=
        mul_le_mul_of_nonneg_right herror (by norm_num)
    _ = packets / 2 ^ 53 := by
        rw [zpow_neg, zpow_natCast]
        ring

theorem abs_sum_doubles_sub_le (increases : List ℚ) (hnonneg : ∀ packets ∈ increases, 0 ≤ packets) :
    |(increases.map fun packets => double (packets / 1000000) * 1000000).sum - increases.sum| ≤
      increases.sum / 2 ^ 53 := by
  induction increases with
  | nil => simp
  | cons packets rest ih =>
      have hfirst := abs_double_mul_sub_le (hnonneg packets (by simp))
      have hrest := ih fun other hother => hnonneg other (List.mem_cons_of_mem _ hother)
      rw [abs_le] at hfirst hrest ⊢
      simp only [List.map_cons, List.sum_cons]
      constructor <;> linarith

theorem Consistent.abs_sum_rates_sub_le {lines : List Line} (h : Consistent lines) :
    |(lines.map fun line => line.rate * 1000000).sum - lastTotal lines| ≤
      lastTotal lines / 2 ^ 53 := by
  have hsum : (increases 0 (lines.map Line.total)).sum = lastTotal lines := by
    rw [sum_increases, sub_zero, lastTotal_eq]
  have hrates : (lines.map fun line => line.rate * 1000000) =
      (increases 0 (lines.map Line.total)).map
        fun packets => double (packets / 1000000) * 1000000 := by
    have hscaled := congrArg (List.map (· * (1000000 : ℚ))) h.rates
    rw [List.map_map, List.map_map] at hscaled
    exact hscaled
  rw [hrates, ← hsum]
  exact abs_sum_doubles_sub_le _ h.nonneg

theorem Line.abs_shownRate_sub_le (line : Line) :
    |line.shownRate * 1000000 - line.rate * 1000000| ≤ 5000 := by
  have hround := abs_roundHalfEven_sub_le (100 * line.rate)
  rw [shownRate]
  rw [abs_le] at hround ⊢
  constructor <;> linarith

theorem abs_sum_shownRates_sub_le (lines : List Line) :
    |(lines.map fun line => line.shownRate * 1000000).sum -
      (lines.map fun line => line.rate * 1000000).sum| ≤ 5000 * (lines.length : ℚ) := by
  induction lines with
  | nil => simp
  | cons line rest ih =>
      have hfirst := line.abs_shownRate_sub_le
      simp only [List.map_cons, List.sum_cons, List.length_cons]
      push_cast
      rw [abs_le] at hfirst ih ⊢
      constructor <;> linarith

/-! ## The invariant -/

def LcorePc.uncounted : LcorePc → List Mbuf
  | .received bufs => bufs
  | .loaded bufs _ => bufs
  | _ => []

def LcorePc.unfreed : LcorePc → List Mbuf
  | .poll => []
  | .received bufs => bufs
  | .loaded bufs _ => bufs
  | .freeing bufs => bufs

/-- The counting side: every delivered packet is returned or still in the ring,
every returned one freed or about to be, and `re` lags by the open burst. -/
structure Counted (s : State) : Prop where
  stream : s.returned ++ s.ring = List.range s.delivered
  freed : s.returned = s.freed ++ s.lcore.unfreed
  count : s.re + s.lcore.uncounted.length = s.returned.length
  loaded : ∀ bufs value, s.lcore = .loaded bufs value → value = s.re

/-- The printing side: `old` is the last total, and the total about to be printed
lies between it and `re`. -/
structure Reported (s : State) : Prop where
  consistent : Consistent s.lines
  last_nat : ∃ n : ℕ, lastTotal s.lines = n ∧ n ≤ s.re
  old_eq : (∀ j, s.timer ≠ .printed j) → s.old = lastTotal s.lines
  pending : ∀ imissed j, s.timer = .gotTotal imissed j →
    ∃ n : ℕ, j = n ∧ lastTotal s.lines ≤ j ∧ n ≤ s.re
  storing : ∀ j, s.timer = .printed j → j = lastTotal s.lines

def Inv (s : State) : Prop := s.delivered < 2 ^ 53 → Counted s ∧ Reported s

theorem Counted.re_le_delivered {s : State} (h : Counted s) : s.re ≤ s.delivered := by
  have hlength := congrArg List.length h.stream
  have hcount := h.count
  simp only [List.length_append, List.length_range] at hlength
  omega

theorem double_natCast {n : ℕ} (hn : n < 2 ^ 53) : double (n : ℚ) = n := by
  have h := roundBits_intCast (p := 53) (n := (n : ℤ)) (by
    rw [abs_of_nonneg (by positivity)]
    exact_mod_cast hn)
  simpa using h

theorem inv_init : Inv init := by
  intro _
  refine ⟨⟨rfl, rfl, rfl, ?_⟩, ⟨consistent_nil, ⟨0, by simp [init, lastTotal], le_rfl⟩,
    ?_, ?_, ?_⟩⟩
  · intro bufs value h
    cases h
  · intro _
    simp [init, lastTotal]
  · intro imissed j h
    cases h
  · intro j h
    cases h

/-! ## The polling thread -/

theorem Reported.of_re_le {s t : State} (h : Reported s) (hlines : t.lines = s.lines)
    (htimer : t.timer = s.timer) (hold : t.old = s.old) (hre : s.re ≤ t.re) :
    Reported t := by
  obtain ⟨n, hn, hle⟩ := h.last_nat
  refine ⟨?_, ⟨n, ?_, hle.trans hre⟩, ?_, ?_, ?_⟩
  · rw [hlines]
    exact h.consistent
  · rw [hlines]
    exact hn
  · rw [hlines, htimer, hold]
    exact h.old_eq
  · rw [hlines, htimer]
    intro imissed j hj
    obtain ⟨m, hm, hlast, hmre⟩ := h.pending imissed j hj
    exact ⟨m, hm, hlast, hmre.trans hre⟩
  · rw [hlines, htimer]
    exact h.storing

theorem counted_deliver {s : State} (h : Counted s) (count : ℕ) :
    Counted { s with
      delivered := s.delivered + count
      ring := s.ring ++ List.range' s.delivered count } := by
  refine ⟨?_, h.freed, h.count, h.loaded⟩
  have hrange : List.range (s.delivered + count) =
      List.range s.delivered ++ List.range' s.delivered count := by
    rw [List.range_eq_range', List.range_eq_range', ← List.range'_append_1, Nat.zero_add]
  rw [← List.append_assoc, h.stream, hrange]

theorem counted_burst {s : State} (h : Counted s) (hpc : s.lcore = .poll) {nbRx : ℕ}
    (hlen : nbRx ≤ s.ring.length) :
    Counted { s with
      ring := s.ring.drop nbRx
      returned := s.returned ++ s.ring.take nbRx
      lcore := if nbRx = 0 then .poll else .received (s.ring.take nbRx) } := by
  have hfreed : s.returned = s.freed := by simpa [hpc, LcorePc.unfreed] using h.freed
  have hcount : s.re = s.returned.length := by
    simpa [hpc, LcorePc.uncounted] using h.count
  have hstream : (s.returned ++ s.ring.take nbRx) ++ s.ring.drop nbRx =
      List.range s.delivered := by
    rw [List.append_assoc, List.take_append_drop, h.stream]
  split_ifs with hzero
  · subst hzero
    refine ⟨hstream, ?_, ?_, ?_⟩
    · simpa [LcorePc.unfreed] using hfreed
    · simpa [LcorePc.uncounted] using hcount
    · intro bufs value heq
      cases heq
  · refine ⟨hstream, ?_, ?_, ?_⟩
    · simp [LcorePc.unfreed, hfreed]
    · simp [LcorePc.uncounted, hcount]
    · intro bufs value heq
      cases heq

theorem counted_lcore {s t : State} (h : Counted s) (hlt : s.delivered < 2 ^ 53)
    (hstep : lcoreStep s = some t) :
    Counted t ∧ s.re ≤ t.re ∧ t.lines = s.lines ∧ t.timer = s.timer ∧ t.old = s.old := by
  have hlength := congrArg List.length h.stream
  have hcount := h.count
  simp only [List.length_append, List.length_range] at hlength
  unfold lcoreStep at hstep
  cases hpc : s.lcore with
  | poll => simp [hpc] at hstep
  | received bufs =>
      simp only [hpc, Option.some.injEq] at hstep
      subst hstep
      refine ⟨⟨h.stream, ?_, ?_, ?_⟩, le_rfl, rfl, rfl, rfl⟩
      · simpa [hpc, LcorePc.unfreed] using h.freed
      · simpa [hpc, LcorePc.uncounted] using h.count
      · intro other value heq
        cases heq
        rfl
  | loaded bufs value =>
      simp only [hpc, Option.some.injEq] at hstep
      subst hstep
      have hvalue : value = s.re := h.loaded bufs value hpc
      simp only [hpc, LcorePc.uncounted] at hcount
      have hnowrap : (value + bufs.length) % 2 ^ 64 = s.returned.length := by
        rw [hvalue, hcount, Nat.mod_eq_of_lt (by omega)]
      refine ⟨⟨h.stream, ?_, ?_, ?_⟩, ?_, rfl, rfl, rfl⟩
      · simpa [hpc, LcorePc.unfreed] using h.freed
      · simpa [LcorePc.uncounted] using hnowrap
      · intro other value' heq
        cases heq
      · change s.re ≤ (value + bufs.length) % 2 ^ 64
        omega
  | freeing bufs =>
      simp only [hpc, LcorePc.uncounted, List.length_nil, Nat.add_zero] at hcount
      cases bufs with
      | nil =>
          simp only [hpc, Option.some.injEq] at hstep
          subst hstep
          refine ⟨⟨h.stream, ?_, hcount, ?_⟩, le_rfl, rfl, rfl, rfl⟩
          · simpa [hpc, LcorePc.unfreed] using h.freed
          · intro other value heq
            cases heq
      | cons buf bufs =>
          simp only [hpc, Option.some.injEq] at hstep
          subst hstep
          refine ⟨⟨h.stream, ?_, hcount, ?_⟩, le_rfl, rfl, rfl, rfl⟩
          · simpa [hpc, LcorePc.unfreed] using h.freed
          · intro other value heq
            cases heq

/-! ## The timer -/

theorem counted_timer {s : State} (h : Counted s) : Counted (timerStep s) := by
  unfold timerStep
  split <;> exact ⟨h.stream, h.freed, h.count, h.loaded⟩

theorem reported_timer {s : State} (hcounted : Counted s) (h : Reported s)
    (hlt : s.delivered < 2 ^ 53) : Reported (timerStep s) := by
  have hre : s.re < 2 ^ 53 := hcounted.re_le_delivered.trans_lt hlt
  obtain ⟨last, hlast, hlastRe⟩ := h.last_nat
  unfold timerStep
  cases hpc : s.timer with
  | idle =>
      refine ⟨h.consistent, h.last_nat, ?_, ?_, ?_⟩
      · intro _
        exact h.old_eq (by simp [hpc])
      · intro imissed j heq
        cases heq
      · intro j heq
        cases heq
  | gotStats imissed =>
      refine ⟨h.consistent, h.last_nat, ?_, ?_, ?_⟩
      · intro _
        exact h.old_eq (by simp [hpc])
      · intro imissed' j heq
        cases heq
        refine ⟨s.re, double_natCast hre, ?_, le_rfl⟩
        change lastTotal s.lines ≤ double (s.re : ℚ)
        rw [double_natCast hre, hlast]
        exact_mod_cast hlastRe
      · intro j heq
        cases heq
  | gotTotal imissed j =>
      obtain ⟨n, hn, hle, hnre⟩ := h.pending imissed j hpc
      have hold : s.old = lastTotal s.lines := h.old_eq (by simp [hpc])
      -- Both totals are integers below `2^53`, and so is their difference.
      have hdifference : double (j - s.old) = j - lastTotal s.lines := by
        have hln : last ≤ n := by
          rw [hlast, hn] at hle
          exact_mod_cast hle
        have hsub : j - s.old = ((n - last : ℕ) : ℚ) := by
          rw [hold, hlast, hn, Nat.cast_sub hln]
        rw [hsub, double_natCast (by omega), Nat.cast_sub hln, hn, hlast]
      refine ⟨h.consistent.append (congrArg (fun d => double (d / 1000000)) hdifference) hle,
        ⟨n, ?_, hnre⟩, ?_, ?_, ?_⟩
      · simpa using hn
      · intro hne
        exact absurd rfl (hne j)
      · intro imissed' j' heq
        cases heq
      · intro j' heq
        cases heq
        simp
  | printed j =>
      refine ⟨h.consistent, h.last_nat, ?_, ?_, ?_⟩
      · intro _
        exact h.storing j hpc
      · intro imissed j' heq
        cases heq
      · intro j' heq
        cases heq

/-! ## Every run -/

theorem delivered_mono {s t : State} {a : Action} (hstep : step s a = some t) :
    s.delivered ≤ t.delivered := by
  cases a with
  | deliver count =>
      cases hstep
      exact Nat.le_add_right _ _
  | miss =>
      cases hstep
      exact le_rfl
  | burst nbRx =>
      simp only [step] at hstep
      split at hstep
      · split at hstep
        · cases hstep
          exact le_rfl
        · cases hstep
      · cases hstep
  | lcore =>
      simp only [step, lcoreStep] at hstep
      split at hstep <;> cases hstep <;> exact le_rfl
  | timer =>
      simp only [step, Option.some.injEq] at hstep
      subst hstep
      unfold timerStep
      split <;> exact le_rfl

theorem inv_step (s : State) (a : Action) (t : State) (hs : Inv s)
    (hstep : step s a = some t) : Inv t := by
  intro ht
  have hlt : s.delivered < 2 ^ 53 := (delivered_mono hstep).trans_lt ht
  obtain ⟨hcounted, hreported⟩ := hs hlt
  cases a with
  | deliver count =>
      cases hstep
      exact ⟨counted_deliver hcounted count, hreported.of_re_le rfl rfl rfl le_rfl⟩
  | miss =>
      cases hstep
      exact ⟨⟨hcounted.stream, hcounted.freed, hcounted.count, hcounted.loaded⟩,
        hreported.of_re_le rfl rfl rfl le_rfl⟩
  | burst nbRx =>
      simp only [step] at hstep
      split at hstep
      · next hpc =>
          split at hstep
          · next hbound =>
              cases hstep
              exact ⟨counted_burst hcounted hpc hbound.2,
                hreported.of_re_le rfl rfl rfl le_rfl⟩
          · cases hstep
      · cases hstep
  | lcore =>
      obtain ⟨hcounted', hre, hlines, htimer, hold⟩ := counted_lcore hcounted hlt hstep
      exact ⟨hcounted', hreported.of_re_le hlines htimer hold hre⟩
  | timer =>
      simp only [step, Option.some.injEq] at hstep
      subst hstep
      exact ⟨counted_timer hcounted, reported_timer hcounted hreported hlt⟩

/-- Every packet is counted once and freed once, and belongs to exactly one period, in
every state of every run: the rate of a line is the increase of the total, so the rates
add up to the last total up to the rounding of the divisions and, in the two decimals
shown, up to 5000 packets a line. -/
theorem every_packet_accounted_once (acts : List Action) (s : State)
    (hrun : exec step acts init = some s) (hfew : s.delivered < 2 ^ 53) :
    (s.lcore = .poll → s.re = s.returned.length ∧ s.freed = s.returned) ∧
    s.returned.Nodup ∧
    (s.lines.map Line.total).Pairwise (· ≤ ·) ∧
    (∀ line ∈ s.lines, line.total ≤ s.returned.length) ∧
    s.lines.map Line.rate = (increases 0 (s.lines.map Line.total)).map
      (fun packets => double (packets / 1000000)) ∧
    (increases 0 (s.lines.map Line.total)).sum = lastTotal s.lines ∧
    |(s.lines.map fun line => line.rate * 1000000).sum - lastTotal s.lines| ≤
      lastTotal s.lines / 2 ^ 53 ∧
    |(s.lines.map fun line => line.shownRate * 1000000).sum - lastTotal s.lines| ≤
      5000 * (s.lines.length : ℚ) + lastTotal s.lines / 2 ^ 53 := by
  obtain ⟨hcounted, hreported⟩ := exec_invariant inv_step inv_init hrun hfew
  have hrates := hreported.consistent.abs_sum_rates_sub_le
  have hshown := abs_sum_shownRates_sub_le s.lines
  refine ⟨?_, ?_, hreported.consistent.mono, ?_, hreported.consistent.rates, ?_, hrates, ?_⟩
  · intro hpc
    have hcount := hcounted.count
    have hfreed := hcounted.freed
    simp only [hpc, LcorePc.uncounted, LcorePc.unfreed, List.length_nil, Nat.add_zero,
      List.append_nil] at hcount hfreed
    exact ⟨hcount, hfreed.symm⟩
  · have hnodup := List.nodup_range (n := s.delivered)
    rw [← hcounted.stream] at hnodup
    exact hnodup.of_append_left
  · intro line hline
    obtain ⟨n, hn, hnre⟩ := hreported.last_nat
    have hle := hreported.consistent.le_last line hline
    have hcount := hcounted.count
    have hbound : (n : ℚ) ≤ s.returned.length := by
      have : n ≤ s.returned.length := by omega
      exact_mod_cast this
    rw [hn] at hle
    exact hle.trans hbound
  · rw [sum_increases, sub_zero, lastTotal_eq]
  · rw [abs_le] at hrates hshown ⊢
    constructor <;> linarith

/-- A timer that fires in the middle of a burst of two, and once more after it. -/
def midBurstRun : List Action :=
  [.deliver 3, .burst 2, .timer, .lcore, .timer, .lcore, .timer, .lcore, .timer,
   .timer, .timer, .timer, .timer]

theorem every_packet_accounted_once_midBurstRun :
    ∃ s, exec step midBurstRun init = some s ∧ s.delivered < 2 ^ 53 ∧
      s.lines.map Line.total = [0, 2] ∧
      (increases 0 (s.lines.map Line.total)).sum = lastTotal s.lines ∧
      |(s.lines.map fun line => line.rate * 1000000).sum - lastTotal s.lines| ≤
        lastTotal s.lines / 2 ^ 53 := by
  have h := every_packet_accounted_once midBurstRun _ rfl (by decide)
  exact ⟨_, rfl, by decide, by decide +kernel, h.2.2.2.2.2.1, h.2.2.2.2.2.2.1⟩

def onePacketRun : List Action :=
  [.deliver 1, .burst 1, .lcore, .lcore, .timer, .timer, .timer]

/-- A single packet is a rate of a millionth, which `double` only comes close to and
which is shown as `0.00`. -/
theorem rates_of_onePacketRun :
    ∃ s, exec step onePacketRun init = some s ∧ s.delivered < 2 ^ 53 ∧
      lastTotal s.lines = 1 ∧
      (s.lines.map fun line => line.rate * 1000000).sum ≠ lastTotal s.lines ∧
      (s.lines.map fun line => line.shownRate * 1000000).sum ≠ lastTotal s.lines := by
  refine ⟨_, rfl, by decide, by decide +kernel, by decide +kernel, by decide +kernel⟩

end SoftwareSwitches.FloWatcher
