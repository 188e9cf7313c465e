import SoftwareSwitches.Chain.Agreement

/-!
# BESS, FastClick and VPP

The other switches of the loopback experiments join ports directly:

* BESS by pipelines from an input to an output port (`loopback-N-vm-bi.bess`);
* FastClick by `FromDPDKDevice(..) -> ToDPDKDevice(..)` (`loopback-N-vm-bi.click`);
* VPP by `set int l2 xconnect` or, if `vppctl_loopback-N-vm.sh` is given an argument, by
  `test l2patch`.

BESS, FastClick and Snabb have one-way chains as well, from NIC 0 to NIC 1 only.  No
switch but t4p4s looks into the packet, so the addresses the VNFs write are no concern
of theirs.
-/

namespace SoftwareSwitches.Chain

open SoftwareSwitches.Lib.Execution

variable {α : Type}

/-- `PMDPort` by `port_id`, or the port `v1`, `v2`, ... with the socket of a VNF. -/
inductive BessPort where
  | pmd (portId : ℕ)
  | v (i : ℕ)
  deriving DecidableEq, Repr

def bessPort : Port → BessPort
  | .nic .nic0 => .pmd 0
  | .nic .nic1 => .pmd 1
  | .vhost i => .v i

/-- The pipelines of `loopback-N-vm-bi.bess`; `in0`, `out0`, `in1` and `out1` are the
queues of the two NICs. -/
def bessPipelines : ChainLength → List (BessPort × BessPort)
  | .two =>
    [(.pmd 0, .v 1), (.v 2, .v 3), (.v 4, .pmd 1), (.pmd 1, .v 4), (.v 3, .v 2), (.v 1, .pmd 0)]
  | .three =>
    [(.pmd 0, .v 1), (.v 2, .v 3), (.v 4, .v 5), (.v 6, .pmd 1),
     (.pmd 1, .v 6), (.v 5, .v 4), (.v 3, .v 2), (.v 1, .pmd 0)]
  | .four =>
    [(.pmd 0, .v 1), (.v 2, .v 3), (.v 4, .v 5), (.v 6, .v 7), (.v 8, .pmd 1),
     (.pmd 1, .v 8), (.v 7, .v 6), (.v 5, .v 4), (.v 3, .v 2), (.v 1, .pmd 0)]
  | .five =>
    [(.pmd 0, .v 1), (.v 2, .v 3), (.v 4, .v 5), (.v 6, .v 7), (.v 8, .v 9), (.v 10, .pmd 1),
     (.pmd 1, .v 10), (.v 9, .v 8), (.v 7, .v 6), (.v 5, .v 4), (.v 3, .v 2), (.v 1, .pmd 0)]

/-- The pipelines of `loopback-N-vm.bess`. -/
def bessOneWay : ChainLength → List (BessPort × BessPort)
  | .two => [(.pmd 0, .v 1), (.v 2, .v 3), (.v 4, .pmd 1)]
  | .three => [(.pmd 0, .v 1), (.v 2, .v 3), (.v 4, .v 5), (.v 6, .pmd 1)]
  | .four => [(.pmd 0, .v 1), (.v 2, .v 3), (.v 4, .v 5), (.v 6, .v 7), (.v 8, .pmd 1)]
  | .five =>
    [(.pmd 0, .v 1), (.v 2, .v 3), (.v 4, .v 5), (.v 6, .v 7), (.v 8, .v 9), (.v 10, .pmd 1)]

/-- DPDK numbers the NICs first and then the `--vdev` options; VPP's interfaces
`NAMELC0P0`, `NAMELC0P1`, ... have the same numbers. -/
def dpdkDevice : Port → ℕ
  | .nic .nic0 => 0
  | .nic .nic1 => 1
  | .vhost i => i + 1

/-- `loopback-N-vm-bi.click`. -/
def clickElements : ChainLength → List (ℕ × ℕ)
  | .two => [(0, 2), (3, 4), (5, 1), (1, 5), (4, 3), (2, 0)]
  | .three => [(0, 2), (2, 0), (3, 4), (4, 3), (5, 6), (6, 5), (7, 1), (1, 7)]
  | .four =>
    [(0, 2), (2, 0), (3, 4), (4, 3), (5, 6), (6, 5), (7, 8), (8, 7), (9, 1), (1, 9)]
  | .five =>
    [(0, 2), (2, 0), (3, 4), (4, 3), (5, 6), (6, 5), (7, 8), (8, 7), (9, 10), (10, 9),
     (11, 1), (1, 11)]

/-- `loopback-N-vm.click`. -/
def clickOneWay : ChainLength → List (ℕ × ℕ)
  | .two => [(0, 2), (3, 4), (5, 1)]
  | .three => [(0, 2), (3, 4), (5, 6), (7, 1)]
  | .four => [(0, 2), (3, 4), (5, 6), (7, 8), (9, 1)]
  | .five => [(0, 2), (3, 4), (5, 6), (7, 8), (9, 10), (11, 1)]

/-- `set int l2 xconnect` in `vppctl_loopback-N-vm.sh`: the receiving interface and the
one its packets are sent out of. -/
def xconnects : ChainLength → List (ℕ × ℕ)
  | .two => [(2, 0), (0, 2), (4, 3), (3, 4), (1, 5), (5, 1)]
  | .three => [(2, 0), (0, 2), (4, 3), (3, 4), (6, 5), (5, 6), (1, 7), (7, 1)]
  | .four =>
    [(2, 0), (0, 2), (4, 3), (3, 4), (6, 5), (5, 6), (8, 7), (7, 8), (1, 9), (9, 1)]
  | .five =>
    [(2, 0), (0, 2), (4, 3), (3, 4), (6, 5), (5, 6), (8, 7), (7, 8), (10, 9), (9, 10),
     (11, 1), (1, 11)]

/-- `test l2patch rx .. tx ..` in `vppctl_loopback-N-vm.sh`. -/
def l2patches : ChainLength → List (ℕ × ℕ)
  | .two => [(0, 2), (2, 0), (4, 3), (3, 4), (1, 5), (5, 1)]
  | .three => [(0, 2), (2, 0), (4, 3), (3, 4), (6, 5), (5, 6), (1, 7), (7, 1)]
  | .four =>
    [(0, 2), (2, 0), (4, 3), (3, 4), (6, 5), (5, 6), (8, 7), (7, 8), (1, 9), (9, 1)]
  | .five =>
    [(0, 2), (2, 0), (4, 3), (3, 4), (6, 5), (5, 6), (8, 7), (7, 8), (10, 9), (9, 10),
     (11, 1), (1, 11)]

/-- The `config.link` calls of `loopbackN.lua`. -/
def snabbOneWay : ChainLength → List (App × App)
  | .two => [(.nic1, .vi 1), (.vi 2, .vi 3), (.vi 4, .nic2)]
  | .three => [(.nic1, .vi 1), (.vi 2, .vi 3), (.vi 4, .vi 5), (.vi 6, .nic2)]
  | .four =>
    [(.nic1, .vi 1), (.vi 2, .vi 3), (.vi 4, .vi 5), (.vi 6, .vi 7), (.vi 8, .nic2)]
  | .five =>
    [(.nic1, .vi 1), (.vi 2, .vi 3), (.vi 4, .vi 5), (.vi 6, .vi 7), (.vi 8, .vi 9),
     (.vi 10, .nic2)]

/-- A switch that joins ports: a port that is joined to none has its packets dropped. -/
def joinSwitch {ν : Type} [DecidableEq ν] (N : ChainLength) (num : Port → ν)
    (table : List (ν × ν)) (p : Port) (_ : Packet α) : Option Port :=
  (table.lookup (num p)).bind (portOf N num)

/-! ## Two-way chains -/

inductive Wiring where
  | t4p4s
  | ovsDpdk
  | snabb
  | bess
  | fastclick
  | vppXconnect
  | vppL2patch
  deriving DecidableEq, Repr

def Wiring.switch (N : ChainLength) : Wiring → Port → Packet α → Option Port
  | .t4p4s => t4p4sSwitch N
  | .ovsDpdk => ovsSwitch N
  | .snabb => snabbSwitch N
  | .bess => joinSwitch N bessPort (bessPipelines N)
  | .fastclick => joinSwitch N dpdkDevice (clickElements N)
  | .vppXconnect => joinSwitch N dpdkDevice (xconnects N)
  | .vppL2patch => joinSwitch N dpdkDevice (l2patches N)

theorem bessPipelines_join (N : ChainLength) : ∀ p ∈ ports N,
    ((bessPipelines N).lookup (bessPort p)).bind (portOf N bessPort) =
      some (chainNext N p) := by
  cases N <;> decide

theorem clickElements_join (N : ChainLength) : ∀ p ∈ ports N,
    ((clickElements N).lookup (dpdkDevice p)).bind (portOf N dpdkDevice) =
      some (chainNext N p) := by
  cases N <;> decide

theorem xconnects_join (N : ChainLength) : ∀ p ∈ ports N,
    ((xconnects N).lookup (dpdkDevice p)).bind (portOf N dpdkDevice) =
      some (chainNext N p) := by
  cases N <;> decide

theorem l2patches_join (N : ChainLength) : ∀ p ∈ ports N,
    ((l2patches N).lookup (dpdkDevice p)).bind (portOf N dpdkDevice) =
      some (chainNext N p) := by
  cases N <;> decide

theorem Wiring.switch_eq (w : Wiring) (N : ChainLength) {p : Port} (hp : p ∈ ports N)
    {pkt : Packet α} (hdst : pkt.dst = dstAt p) : w.switch N p pkt = chainSwitch N p pkt := by
  cases w with
  | t4p4s => exact t4p4sSwitch_eq N hp hdst
  | ovsDpdk => exact ovsSwitch_eq N hp pkt
  | snabb => exact snabbSwitch_eq N hp pkt
  | bess => exact bessPipelines_join N p hp
  | fastclick => exact clickElements_join N p hp
  | vppXconnect => exact xconnects_join N p hp
  | vppL2patch => exact l2patches_join N p hp

theorem Wiring.exec_eq (w : Wiring) (N : ChainLength) (acts : List (Action α)) {s : State α}
    (hs : Inv N s) :
    exec (step N (w.switch N)) acts s = exec (step N (chainSwitch N)) acts s :=
  exec_eq_chain N (w.switch N) (fun _ hp _ hdst => w.switch_eq N hp hdst) acts hs

end SoftwareSwitches.Chain
