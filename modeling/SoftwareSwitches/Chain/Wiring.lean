import Mathlib.Data.List.Basic
import Mathlib.Data.List.Range

/-!
# Three wirings of the VNF chain

The N-VNF loopback experiments send packets from one NIC through `N` virtual
network functions to the other NIC, and back.  The chain is wired three times:

* t4p4s forwards by destination MAC (`loopback-N-vm_table.txt`);
* OVS-DPDK forwards by ingress port (`ovs-loopback-N-vm.sh`);
* Snabb is a graph of links between apps (`loopbackN-bi.lua`).

Each configuration is transcribed below as the file has it.  `chainNext` is the
wiring all of them are meant to be.
-/

namespace SoftwareSwitches.Chain

abbrev Mac := BitVec 48

/-- The chain lengths that have their own loopback configuration. -/
inductive ChainLength where
  | two
  | three
  | four
  | five
  deriving DecidableEq, Repr

def ChainLength.vnfs : ChainLength → ℕ
  | .two => 2
  | .three => 3
  | .four => 4
  | .five => 5

inductive Nic where
  | nic0
  | nic1
  deriving DecidableEq, Repr

def Nic.other : Nic → Nic
  | .nic0 => .nic1
  | .nic1 => .nic0

/-- A switch port.  `vhost i` is the `i`-th vhost-user port, counted from one;
VNF `k` owns `vhost (2k-1)` and `vhost (2k)`. -/
inductive Port where
  | nic (n : Nic)
  | vhost (i : ℕ)
  deriving DecidableEq, Repr

def ports (N : ChainLength) : List Port :=
  .nic .nic0 :: .nic .nic1 :: (List.range (2 * N.vnfs)).map fun i => .vhost (i + 1)

/-- The wiring all configurations are meant to have: NIC 0 faces the first vhost
port, NIC 1 the last one, and the second port of each VNF faces the first port
of the next. -/
def chainNext (N : ChainLength) : Port → Port
  | .nic .nic0 => .vhost 1
  | .nic .nic1 => .vhost (2 * N.vnfs)
  | .vhost i =>
    if i = 1 then .nic .nic0
    else if i = 2 * N.vnfs then .nic .nic1
    else if i % 2 = 0 then .vhost (i + 1)
    else .vhost (i - 1)

/-! ## t4p4s -/

/-- `loopback-N-vm_table.txt`: destination address and output port. -/
def dmacTable : ChainLength → List (Mac × ℕ)
  | .two =>
    [(0xaaccddcc0001, 2), (0xaabbbbaa0001, 5),
     (0x020000000001, 4), (0x020000000000, 0),
     (0x030000000001, 1), (0x030000000000, 3)]
  | .three =>
    [(0xaaccddcc0001, 2), (0xaabbbbaa0001, 7),
     (0x020000000001, 4), (0x020000000000, 0),
     (0x030000000001, 6), (0x030000000000, 3),
     (0x040000000001, 1), (0x040000000000, 5)]
  | .four =>
    [(0xaaccddcc0001, 2), (0xaabbbbaa0001, 9),
     (0x020000000001, 4), (0x020000000000, 0),
     (0x030000000001, 6), (0x030000000000, 3),
     (0x040000000001, 8), (0x040000000000, 5),
     (0x050000000001, 1), (0x050000000000, 7)]
  | .five =>
    [(0xaaccddcc0001, 2), (0xaabbbbaa0001, 11),
     (0x020000000001, 4), (0x020000000000, 0),
     (0x030000000001, 6), (0x030000000000, 3),
     (0x040000000001, 8), (0x040000000000, 5),
     (0x050000000001, 10), (0x050000000000, 7),
     (0x060000000001, 1), (0x060000000000, 9)]

/-- The exact-match `dmac` table; `none` is a miss. -/
def t4p4sLookup (N : ChainLength) (dst : Mac) : Option ℕ := (dmacTable N).lookup dst

/-- t4p4s numbers the NICs 0 and 1 and the vhost ports from 2 on. -/
def t4p4sPort : Port → ℕ
  | .nic .nic0 => 0
  | .nic .nic1 => 1
  | .vhost i => i + 1

/-! ## OVS-DPDK -/

/-- The `ofport_request` of each `vhost-user-i`. -/
def ofportRequests : ChainLength → List (ℕ × ℕ)
  | .two => [(1, 3), (2, 4), (3, 5), (4, 6)]
  | .three => [(1, 3), (2, 4), (3, 5), (4, 6), (5, 7), (6, 8)]
  | .four => [(1, 3), (2, 4), (3, 5), (4, 6), (5, 7), (6, 8), (7, 9), (8, 10)]
  | .five =>
    [(1, 3), (2, 4), (3, 5), (4, 6), (5, 7), (6, 8), (7, 9), (8, 10), (9, 11), (10, 12)]

/-- The OpenFlow port number.  `dpdk-lc0p0` and `dpdk-lc0p1` are added first and
without a request, so they get 1 and 2. -/
def ovsPort (N : ChainLength) : Port → Option ℕ
  | .nic .nic0 => some 1
  | .nic .nic1 => some 2
  | .vhost i => (ofportRequests N).lookup i

def ofport : Port → ℕ
  | .nic .nic0 => 1
  | .nic .nic1 => 2
  | .vhost i => i + 2

/-- The `add-flow` rules of `ovs-loopback-N-vm.sh`: `in_port` and output port. -/
def flows : ChainLength → List (ℕ × ℕ)
  | .two => [(1, 3), (3, 1), (4, 5), (5, 4), (6, 2), (2, 6)]
  | .three => [(1, 3), (3, 1), (4, 5), (5, 4), (6, 7), (7, 6), (8, 2), (2, 8)]
  | .four =>
    [(1, 3), (3, 1), (4, 5), (5, 4), (6, 7), (7, 6), (8, 9), (9, 8), (10, 2), (2, 10)]
  | .five =>
    [(1, 3), (3, 1), (4, 5), (5, 4), (6, 7), (7, 6), (8, 9), (9, 8), (10, 11), (11, 10),
     (12, 2), (2, 12)]

def ovsLookup (N : ChainLength) (inPort : ℕ) : Option ℕ := (flows N).lookup inPort

/-! ## Snabb -/

inductive App where
  | nic1
  | nic2
  | vi (i : ℕ)
  deriving DecidableEq, Repr

def snabbApp : Port → App
  | .nic .nic0 => .nic1
  | .nic .nic1 => .nic2
  | .vhost i => .vi i

/-- The `config.link` calls of `loopbackN-bi.lua`, from `tx` to `rx`. -/
def links : ChainLength → List (App × App)
  | .two =>
    [(.nic1, .vi 1), (.vi 1, .nic1), (.vi 2, .vi 3), (.vi 3, .vi 2),
     (.vi 4, .nic2), (.nic2, .vi 4)]
  | .three =>
    [(.nic1, .vi 1), (.vi 1, .nic1), (.vi 2, .vi 3), (.vi 3, .vi 2),
     (.vi 4, .vi 5), (.vi 5, .vi 4), (.vi 6, .nic2), (.nic2, .vi 6)]
  | .four =>
    [(.nic1, .vi 1), (.vi 1, .nic1), (.vi 2, .vi 3), (.vi 3, .vi 2),
     (.vi 4, .vi 5), (.vi 5, .vi 4), (.vi 6, .vi 7), (.vi 7, .vi 6),
     (.vi 8, .nic2), (.nic2, .vi 8)]
  | .five =>
    [(.nic1, .vi 1), (.vi 1, .nic1), (.vi 2, .vi 3), (.vi 3, .vi 2),
     (.vi 4, .vi 5), (.vi 5, .vi 4), (.vi 6, .vi 7), (.vi 7, .vi 6),
     (.vi 8, .vi 9), (.vi 9, .vi 8), (.vi 10, .nic2), (.nic2, .vi 10)]

def snabbLookup (N : ChainLength) (app : App) : Option App := (links N).lookup app

/-! ## Addresses -/

/-- One line of `t4p4s/cmd.txt`: the `mac=` options of the two virtio ports and
the two `--eth-peer` options of a testpmd instance. -/
structure TestpmdOptions where
  mac : Nat → Mac
  ethPeer : Nat → Mac

def testpmdOptions (mac0 mac1 peer0 peer1 : Mac) : TestpmdOptions where
  mac port := if port = 0 then mac0 else mac1
  ethPeer port := if port = 0 then peer0 else peer1

/-- `t4p4s/cmd.txt`, VNF by VNF; a chain of `N` VNFs uses the first `N` lines.
There is no VNF beyond the fifth, so the last line stands for every other index. -/
def vnfOptions : ℕ → TestpmdOptions
  | 1 => testpmdOptions 0x000000000001 0x000000000002 0x020000000000 0x020000000001
  | 2 => testpmdOptions 0x000000000003 0x000000000004 0x030000000000 0x030000000001
  | 3 => testpmdOptions 0x000000000005 0x000000000006 0x040000000000 0x040000000001
  | 4 => testpmdOptions 0x000000000007 0x000000000008 0x050000000000 0x050000000001
  | _ => testpmdOptions 0x000000000009 0x000000000010 0x060000000000 0x060000000001

def injectDst : Nic → Mac
  | .nic0 => 0xaaccddcc0001
  | .nic1 => 0xaabbbbaa0001

/-- Destination carried by every packet the switch receives on a port: what the
NIC injects, or the eth-peer of the VNF port the packet came out of. -/
def dstAt : Port → Mac
  | .nic n => injectDst n
  | .vhost i => (vnfOptions ((i + 1) / 2)).ethPeer ((i + 1) % 2)

/-! ## The three wirings are the chain -/

theorem t4p4sLookup_dstAt (N : ChainLength) : ∀ p ∈ ports N,
    t4p4sLookup N (dstAt p) = some (t4p4sPort (chainNext N p)) := by
  cases N <;> decide

theorem ovsPort_eq (N : ChainLength) : ∀ p ∈ ports N,
    ovsPort N p = some (ofport p) := by
  cases N <;> decide

theorem ovsLookup_ofport (N : ChainLength) : ∀ p ∈ ports N,
    ovsLookup N (ofport p) = some (ofport (chainNext N p)) := by
  cases N <;> decide

theorem snabbLookup_snabbApp (N : ChainLength) : ∀ p ∈ ports N,
    snabbLookup N (snabbApp p) = some (snabbApp (chainNext N p)) := by
  cases N <;> decide

theorem chainNext_mem (N : ChainLength) : ∀ p ∈ ports N, chainNext N p ∈ ports N := by
  cases N <;> decide

end SoftwareSwitches.Chain
