import SoftwareSwitches.Chain.Switches

/-!
# One-way chains

A one-way chain joins only the ports that packets from NIC 0 come to.  It does for them
what the two-way chain does; what the other NIC receives gets no further than its queue.
-/

namespace SoftwareSwitches.Chain

open SoftwareSwitches.Lib
open SoftwareSwitches.Lib.Execution
open SoftwareSwitches.Lib.FifoPath (contents)

variable {α : Type}

inductive OneWay where
  | bess
  | fastclick
  | snabb
  deriving DecidableEq, Repr

def OneWay.switch (N : ChainLength) : OneWay → Port → Packet α → Option Port
  | .bess => joinSwitch N bessPort (bessOneWay N)
  | .fastclick => joinSwitch N dpdkDevice (clickOneWay N)
  | .snabb => joinSwitch N snabbApp (snabbOneWay N)

def forwardOnly (N : ChainLength) (p : Port) : Option Port :=
  if flowOf (.rx p) = .nic0 then some (chainNext N p) else none

theorem bessOneWay_join (N : ChainLength) : ∀ p ∈ ports N,
    ((bessOneWay N).lookup (bessPort p)).bind (portOf N bessPort) = forwardOnly N p := by
  cases N <;> decide

theorem clickOneWay_join (N : ChainLength) : ∀ p ∈ ports N,
    ((clickOneWay N).lookup (dpdkDevice p)).bind (portOf N dpdkDevice) = forwardOnly N p := by
  cases N <;> decide

theorem snabbOneWay_join (N : ChainLength) : ∀ p ∈ ports N,
    ((snabbOneWay N).lookup (snabbApp p)).bind (portOf N snabbApp) = forwardOnly N p := by
  cases N <;> decide

theorem OneWay.switch_eq (w : OneWay) (N : ChainLength) {p : Port} (hp : p ∈ ports N)
    (pkt : Packet α) : w.switch N p pkt = forwardOnly N p := by
  cases w with
  | bess => exact bessOneWay_join N p hp
  | fastclick => exact clickOneWay_join N p hp
  | snabb => exact snabbOneWay_join N p hp

/-! ## A one-way run is a two-way run with drops -/

/-- A packet of the other direction that comes to the switch is as good as dropped. -/
def asChain : Action α → Action α
  | .forward p => if flowOf (.rx p) = .nic0 then .forward p else .drop (.rx p) 0
  | a => a

theorem step_asChain (w : OneWay) (N : ChainLength) (s : State α) (a : Action α) (t : State α)
    (h : step N (w.switch N) s a = some t) : step N (chainSwitch N) s (asChain a) = some t := by
  cases a with
  | inject n src payload => exact h
  | vnf k j => exact h
  | transmit n => exact h
  | drop q i => cases q <;> exact h
  | forward p =>
      simp only [step] at h
      split_ifs at h with hp
      cases hqueue : s.queue (.rx p) with
      | nil =>
          rw [hqueue] at h
          cases h
      | cons pkt rest =>
          simp only [hqueue, w.switch_eq N hp, forwardOnly] at h
          by_cases hflow : flowOf (.rx p) = .nic0
          · simp only [hflow, if_true] at h
            simpa [asChain, hflow, step, hp, hqueue, chainSwitch] using h
          · simp only [if_neg hflow] at h
            simpa [asChain, hflow, step, hqueue] using h

/-! ## Nothing comes back -/

/-- What is injected at NIC 1 gets no further than its receive queue. -/
def NothingBack (s : State α) : Prop :=
  ∀ q, flowOf q = .nic1 → s.queue q ≠ [] → q = .rx (.nic .nic1) ∧ s.sent .nic1 ≠ []

theorem nothingBack_init : NothingBack (init : State α) := by
  intro q _ hne
  exact absurd rfl hne

theorem Nic.ne_nic0 {n : Nic} : n ≠ .nic0 ↔ n = .nic1 := by
  cases n <;> decide

theorem nothingBack_hop {N : ChainLength} {s : State α} (hs : NothingBack s) {src dst : Queue}
    {pkt pkt' : Packet α} {rest : List (Packet α)} (hsrc : s.queue src = pkt :: rest)
    (hhop : Hop N src dst pkt pkt') (hne : src ≠ .rx (.nic .nic1)) :
    NothingBack (s.move src dst pkt' rest) := by
  have hflow : flowOf src = .nic0 := by
    by_contra hback
    have hqueue := hs src (Nic.ne_nic0.mp hback) (by simp [hsrc])
    exact hne hqueue.1
  have hflow' : flowOf dst = .nic0 := by
    have hmem := flowOf_of_mem_path N (flowOf src) dst (hhop.follows.subset (by simp))
    rw [hmem, hflow]
  intro q hq
  have hqsrc : q ≠ src := by
    intro heq
    rw [heq, hflow] at hq
    cases hq
  have hqdst : q ≠ dst := by
    intro heq
    rw [heq, hflow'] at hq
    cases hq
  simp only [State.move, FifoPath.push, Function.update_of_ne hqdst, Function.update_of_ne hqsrc]
  exact hs q hq

theorem nothingBack_update {s : State α} (hs : NothingBack s) {q : Queue}
    {items : List (Packet α)} (hitems : items ≠ [] → s.queue q ≠ []) :
    NothingBack { s with queue := Function.update s.queue q items } := by
  intro q' hflow hne
  by_cases heq : q' = q
  · subst heq
    simp only [Function.update_self] at hne
    exact hs q' hflow (hitems hne)
  · simp only [Function.update_of_ne heq] at hne
    exact hs q' hflow hne

theorem nothingBack_inject {s t : State α} (hs : NothingBack s) {n : Nic} {pkt : Packet α}
    {payload : α} (hqueue : t.queue = FifoPath.push s.queue (.rx (.nic n)) pkt)
    (hsent : t.sent = Function.update s.sent n (s.sent n ++ [payload])) : NothingBack t := by
  intro q hflow hne
  rw [hsent]
  by_cases heq : q = .rx (.nic n)
  · subst heq
    have hn : n = .nic1 := hflow
    subst hn
    simp
  · rw [hqueue, FifoPath.push, Function.update_of_ne heq] at hne
    obtain ⟨hq, hsome⟩ := hs q hflow hne
    have hn : Nic.nic1 ≠ n := by
      intro hn
      subst hn
      exact heq hq
    rw [Function.update_of_ne hn]
    exact ⟨hq, hsome⟩

theorem nothingBack_step (w : OneWay) {N : ChainLength} {s t : State α} {a : Action α}
    (hs : NothingBack s) (h : step N (w.switch N) s a = some t) : NothingBack t := by
  cases a with
  | inject n src payload =>
      cases h
      exact nothingBack_inject hs rfl rfl
  | forward p =>
      simp only [step] at h
      split_ifs at h with hp
      cases hqueue : s.queue (.rx p) with
      | nil =>
          rw [hqueue] at h
          cases h
      | cons pkt rest =>
          simp only [hqueue, w.switch_eq N hp, forwardOnly] at h
          by_cases hflow : flowOf (.rx p) = .nic0
          · simp only [hflow, if_true, Option.some.injEq] at h
            subst h
            apply nothingBack_hop hs hqueue (hop_forward N hp pkt)
            intro heq
            rw [heq] at hflow
            cases hflow
          · simp only [if_neg hflow, Option.some.injEq] at h
            subst h
            apply nothingBack_update hs
            simp [hqueue]
  | vnf k j =>
      simp only [step] at h
      split_ifs at h with hk
      cases hqueue : s.queue (.tx (vnfPort k j)) with
      | nil =>
          rw [hqueue] at h
          cases h
      | cons pkt rest =>
          rw [hqueue] at h
          cases h
          exact nothingBack_hop hs hqueue (hop_vnf N hk j pkt) (by simp)
  | transmit n =>
      simp only [step] at h
      cases hqueue : s.queue (.tx (.nic n)) with
      | nil =>
          rw [hqueue] at h
          cases h
      | cons pkt rest =>
          rw [hqueue] at h
          cases h
          exact nothingBack_hop hs hqueue (hop_transmit N n pkt) (by simp)
  | drop q i =>
      have hdrop : NothingBack
          { s with queue := Function.update s.queue q ((s.queue q).eraseIdx i) } := by
        apply nothingBack_update hs
        intro hne hnil
        rw [hnil] at hne
        exact hne rfl
      cases q with
      | wire n => cases h
      | rx p =>
          cases h
          exact hdrop
      | tx p =>
          cases h
          exact hdrop

theorem step_eq_chain (w : OneWay) {N : ChainLength} {s : State α} (hs : NothingBack s)
    (hsent : s.sent .nic1 = []) (a : Action α) :
    step N (w.switch N) s a = step N (chainSwitch N) s a := by
  apply step_eq_of_switch_eq
  intro p hp pkt hpkt
  rw [w.switch_eq N hp]
  apply if_pos
  by_contra hback
  have hqueue := hs (.rx p) (Nic.ne_nic0.mp hback) (List.ne_nil_of_mem hpkt)
  exact hqueue.2 hsent

theorem sent_step {N : ChainLength} {sw : Port → Packet α → Option Port} {s t : State α}
    {a : Action α} (ha : ∀ src payload, a ≠ .inject .nic1 src payload)
    (h : step N sw s a = some t) : t.sent .nic1 = s.sent .nic1 := by
  cases a with
  | inject n src payload =>
      cases n with
      | nic0 =>
          cases h
          rfl
      | nic1 => exact absurd rfl (ha src payload)
  | forward p =>
      simp only [step] at h
      split_ifs at h
      split at h
      · cases h
      · split at h
        · cases h
          rfl
        · cases h
          rfl
  | vnf k j =>
      simp only [step] at h
      split_ifs at h
      split at h
      · cases h
      · cases h
        rfl
  | transmit n =>
      simp only [step] at h
      split at h
      · cases h
      · cases h
        rfl
  | drop q i =>
      cases q with
      | wire n => cases h
      | rx p =>
          cases h
          rfl
      | tx p =>
          cases h
          rfl

/-- In every run of a one-way chain nothing leaves at NIC 0, and what leaves at NIC 1 was
injected at NIC 0, in that order, and has passed every VNF in turn.  Where nothing is
injected at NIC 1 the run is one of every two-way wiring. -/
theorem oneWay_forwards (w : OneWay) (N : ChainLength) (acts : List (Action α)) (s : State α)
    (hrun : exec (step N (w.switch N)) acts init = some s) :
    s.queue (.wire .nic0) = [] ∧
      ((s.queue (.wire .nic1)).map Packet.payload).Sublist (s.sent .nic0) ∧
      (∀ pkt ∈ s.queue (.wire .nic1), pkt.visited = route N .nic0) ∧
      ((∀ a ∈ acts, ∀ src payload, a ≠ .inject .nic1 src payload) →
        ∀ w' : Wiring, exec (step N (w'.switch N)) acts init = some s) := by
  have hchain : exec (step N (chainSwitch N)) (acts.map asChain) init = some s :=
    exec_map (step_asChain w N) hrun
  have hinv : Inv N s := exec_invariant inv_step (inv_init N) hchain
  have hback : NothingBack s :=
    exec_invariant (fun s a t hs h => nothingBack_step w hs h) nothingBack_init hrun
  refine ⟨?_, ?_, ?_, ?_⟩
  · by_contra hne
    cases (hback _ rfl hne).1
  · exact (wire_sublist_contents N .nic0 s).trans (hinv.order .nic0)
  · intro pkt hpkt
    rw [hinv.visited _ pkt hpkt]
    rfl
  · intro hacts w'
    rw [w'.exec_eq N acts (inv_init N), ← hrun]
    symm
    apply exec_congr_of_mem (P := fun s => NothingBack s ∧ s.sent .nic1 = [])
    · intro s a t ha hs hstep
      refine ⟨nothingBack_step w hs.1 hstep, ?_⟩
      rw [sent_step (hacts a ha) hstep]
      exact hs.2
    · intro s a _ hs
      exact step_eq_chain w hs.1 hs.2 a
    · exact ⟨nothingBack_init, rfl⟩

/-- One packet each way; the one from NIC 1 is lost at the switch. -/
def bothWaysRun : List (Action ℕ) :=
  singlePacketRun ++ [.inject .nic1 0x2 8, .forward (.nic .nic1)]

theorem oneWay_forwards_bothWaysRun :
    ∃ s, exec (step .two (OneWay.snabb.switch .two)) bothWaysRun init = some s ∧
      s.sent .nic1 = [8] ∧ s.queue (.wire .nic0) = [] := by
  refine ⟨_, rfl, by decide, ?_⟩
  exact (oneWay_forwards .snabb .two bothWaysRun _ rfl).1

end SoftwareSwitches.Chain
