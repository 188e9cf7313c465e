import SoftwareSwitches.Chain.Wiring
import SoftwareSwitches.Lib.Execution
import SoftwareSwitches.Lib.FifoPath

/-!
# The VNF chain as a system of queues

Every port has a queue of packets received by the switch and a queue of packets
sent by it, both FIFO; what a NIC has put on its link is kept as a third queue.
NICs inject, the switch moves the head of a receive queue to the transmit queue
its configuration names, a VNF moves the head of one of its ports to the other
and rewrites the addresses (testpmd `--forward-mode=mac`), any queue may drop
any packet, and all this happens in any order.

The system is parameterised by the forwarding decision, so that the same system
runs under each of the three configurations.
-/

namespace SoftwareSwitches.Chain

open SoftwareSwitches.Lib

variable {α : Type}

structure Packet (α : Type) where
  dst : Mac
  src : Mac
  payload : α
  visited : List ℕ
  deriving DecidableEq

inductive Queue where
  | rx (p : Port)
  | tx (p : Port)
  | wire (n : Nic)
  deriving DecidableEq, Repr

/-- All queues, and the payloads injected at each NIC in order. -/
structure State (α : Type) where
  queue : Queue → List (Packet α)
  sent : Nic → List α

def init : State α where
  queue _ := []
  sent _ := []

inductive Action (α : Type) where
  /-- The load generator sends a packet to a NIC. -/
  | inject (n : Nic) (src : Mac) (payload : α)
  /-- The switch forwards the head packet received on a port. -/
  | forward (p : Port)
  /-- VNF `k` takes the head packet of its port `inPort` (0 or 1). -/
  | vnf (k : ℕ) (inPort : Fin 2)
  /-- A NIC puts the head packet of its transmit queue on its link. -/
  | transmit (n : Nic)
  /-- A receive or transmit queue loses its `i`-th packet. -/
  | drop (q : Queue) (i : ℕ)

def State.move (s : State α) (src dst : Queue) (pkt : Packet α)
    (rest : List (Packet α)) : State α :=
  { s with queue := FifoPath.push (Function.update s.queue src rest) dst pkt }

def vnfPort (k : ℕ) (j : Fin 2) : Port := .vhost (2 * k - 1 + j)

/-- What testpmd in mac mode does to a packet it sends out of its port `j`. -/
def macForward (k : ℕ) (j : Fin 2) (pkt : Packet α) : Packet α :=
  { pkt with
    dst := (vnfOptions k).ethPeer j
    src := (vnfOptions k).mac j
    visited := pkt.visited ++ [k] }

def step (N : ChainLength) (sw : Port → Packet α → Option Port) (s : State α) :
    Action α → Option (State α)
  | .inject n src payload =>
    some {
      queue := FifoPath.push s.queue (.rx (.nic n))
        { dst := injectDst n, src, payload, visited := [] }
      sent := Function.update s.sent n (s.sent n ++ [payload]) }
  | .forward p =>
    if p ∈ ports N then
      match s.queue (.rx p) with
      | [] => none
      | pkt :: rest =>
        match sw p pkt with
        | some out => some (s.move (.rx p) (.tx out) pkt rest)
        -- A lookup that misses leaves the packet without an output port.
        | none => some { s with queue := Function.update s.queue (.rx p) rest }
    else none
  | .vnf k inPort =>
    if 1 ≤ k ∧ k ≤ N.vnfs then
      match s.queue (.tx (vnfPort k inPort)) with
      | [] => none
      | pkt :: rest =>
        some (s.move (.tx (vnfPort k inPort)) (.rx (vnfPort k (1 - inPort)))
          (macForward k (1 - inPort) pkt) rest)
    else none
  | .transmit n =>
    match s.queue (.tx (.nic n)) with
    | [] => none
    | pkt :: rest => some (s.move (.tx (.nic n)) (.wire n) pkt rest)
  | .drop (.wire _) _ => none
  | .drop q i =>
    some { s with queue := Function.update s.queue q ((s.queue q).eraseIdx i) }

/-! ## The three forwarding decisions -/

def portOf {ν : Type} [DecidableEq ν] (N : ChainLength) (num : Port → ν) (n : ν) :
    Option Port :=
  (ports N).find? fun p => num p = n

def t4p4sSwitch (N : ChainLength) (_ : Port) (pkt : Packet α) : Option Port :=
  (t4p4sLookup N pkt.dst).bind (portOf N t4p4sPort)

def ovsSwitch (N : ChainLength) (p : Port) (_ : Packet α) : Option Port :=
  ((ovsPort N p).bind (ovsLookup N)).bind fun n => portOf N (ovsPort N) (some n)

def snabbSwitch (N : ChainLength) (p : Port) (_ : Packet α) : Option Port :=
  (snabbLookup N (snabbApp p)).bind (portOf N snabbApp)

def chainSwitch (N : ChainLength) (p : Port) (_ : Packet α) : Option Port :=
  some (chainNext N p)

theorem portOf_t4p4sPort (N : ChainLength) : ∀ p ∈ ports N,
    portOf N t4p4sPort (t4p4sPort p) = some p := by
  cases N <;> decide

theorem portOf_ofport (N : ChainLength) : ∀ p ∈ ports N,
    portOf N (ovsPort N) (some (ofport p)) = some p := by
  cases N <;> decide

theorem portOf_snabbApp (N : ChainLength) : ∀ p ∈ ports N,
    portOf N snabbApp (snabbApp p) = some p := by
  cases N <;> decide

theorem ovsSwitch_eq (N : ChainLength) {p : Port} (hp : p ∈ ports N)
    (pkt : Packet α) : ovsSwitch N p pkt = chainSwitch N p pkt := by
  rw [ovsSwitch, ovsPort_eq N p hp, Option.bind_some, ovsLookup_ofport N p hp,
    Option.bind_some]
  exact portOf_ofport N _ (chainNext_mem N p hp)

theorem snabbSwitch_eq (N : ChainLength) {p : Port} (hp : p ∈ ports N)
    (pkt : Packet α) : snabbSwitch N p pkt = chainSwitch N p pkt := by
  rw [snabbSwitch, snabbLookup_snabbApp N p hp]
  exact portOf_snabbApp N _ (chainNext_mem N p hp)

/-- t4p4s does not look at the ingress port, so it is the chain only for packets
that carry the address of their ingress port. -/
theorem t4p4sSwitch_eq (N : ChainLength) {p : Port} (hp : p ∈ ports N)
    {pkt : Packet α} (hdst : pkt.dst = dstAt p) :
    t4p4sSwitch N p pkt = chainSwitch N p pkt := by
  rw [t4p4sSwitch, hdst, t4p4sLookup_dstAt N p hp]
  exact portOf_t4p4sPort N _ (chainNext_mem N p hp)

/-- Two packets each way through the chain of two VNFs, in turns; one of each pair has
left when the run ends. -/
def twoWayRun : List (Action ℕ) :=
  [.inject .nic0 0x1 7, .inject .nic1 0x2 8, .inject .nic0 0x1 9, .forward (.nic .nic0),
   .inject .nic1 0x2 10, .forward (.nic .nic1), .vnf 2 1, .vnf 1 0, .forward (.nic .nic0),
   .forward (.vhost 2), .vnf 1 0, .forward (.vhost 3), .forward (.nic .nic1), .vnf 2 0,
   .vnf 1 1, .forward (.vhost 4), .forward (.vhost 1), .transmit .nic1, .transmit .nic0,
   .vnf 2 1]

/-- One packet through the chain of two VNFs, from NIC 0 to NIC 1. -/
def singlePacketRun : List (Action ℕ) :=
  [.inject .nic0 0x1 7, .forward (.nic .nic0), .vnf 1 0, .forward (.vhost 2),
   .vnf 2 0, .forward (.vhost 4), .transmit .nic1]

end SoftwareSwitches.Chain
