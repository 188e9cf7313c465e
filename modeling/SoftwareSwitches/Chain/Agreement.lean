import SoftwareSwitches.Chain.System

/-!
# The three wirings agree on every run

The invariant says, for every queue, which VNFs the packets in it have passed
and which destination address they carry, and that everything on the path from
one NIC to the other is a subsequence of what was injected.  It is proved for
the chain itself; since OVS-DPDK and Snabb *are* the chain and t4p4s is the
chain wherever the address part of the invariant holds, all three have the runs
of the chain.
-/

namespace SoftwareSwitches.Chain

open SoftwareSwitches.Lib
open SoftwareSwitches.Lib.Execution
open SoftwareSwitches.Lib.FifoPath (contents Follows)

variable {α : Type}

/-! ## Paths through the chain -/

/-- The queues that packets injected at `n` pass, last one first. -/
def path (N : ChainLength) : Nic → List Queue
  | .nic0 =>
    .wire .nic1 :: .tx (.nic .nic1) ::
      (List.range N.vnfs).reverse.flatMap
        (fun k => [.rx (.vhost (2 * k + 2)), .tx (.vhost (2 * k + 1))]) ++
      [.rx (.nic .nic0)]
  | .nic1 =>
    .wire .nic0 :: .tx (.nic .nic0) ::
      (List.range N.vnfs).flatMap
        (fun k => [.rx (.vhost (2 * k + 1)), .tx (.vhost (2 * k + 2))]) ++
      [.rx (.nic .nic1)]

def flowOf : Queue → Nic
  | .rx (.nic n) => n
  | .tx (.nic n) => n.other
  | .wire n => n.other
  | .rx (.vhost i) => if i % 2 = 0 then .nic0 else .nic1
  | .tx (.vhost i) => if i % 2 = 0 then .nic1 else .nic0

def route (N : ChainLength) : Nic → List ℕ
  | .nic0 => (List.range N.vnfs).map (· + 1)
  | .nic1 => ((List.range N.vnfs).map (· + 1)).reverse

def visitedAt (N : ChainLength) : Queue → List ℕ
  | .rx (.nic _) => []
  | .tx (.nic n) => route N n.other
  | .wire n => route N n.other
  | .rx (.vhost i) =>
    if i % 2 = 0 then (route N .nic0).take (i / 2)
    else (route N .nic1).take (N.vnfs - i / 2)
  | .tx (.vhost i) =>
    if i % 2 = 0 then (route N .nic1).take (N.vnfs - i / 2)
    else (route N .nic0).take (i / 2)

theorem path_nodup (N : ChainLength) (n : Nic) : (path N n).Nodup := by
  cases N <;> cases n <;> decide

theorem flowOf_of_mem_path (N : ChainLength) (n : Nic) :
    ∀ q ∈ path N n, flowOf q = n := by
  cases N <;> cases n <;> decide

theorem forward_follows (N : ChainLength) : ∀ p ∈ ports N,
    Follows (path N (flowOf (.rx p))) (.rx p) (.tx (chainNext N p)) ∧
      visitedAt N (.tx (chainNext N p)) = visitedAt N (.rx p) := by
  cases N <;> decide

theorem vnf_follows (N : ChainLength) : ∀ i < N.vnfs, ∀ j : Fin 2,
    Follows (path N (flowOf (.tx (vnfPort (i + 1) j)))) (.tx (vnfPort (i + 1) j))
        (.rx (vnfPort (i + 1) (1 - j))) ∧
      visitedAt N (.rx (vnfPort (i + 1) (1 - j))) =
        visitedAt N (.tx (vnfPort (i + 1) j)) ++ [i + 1] ∧
      dstAt (vnfPort (i + 1) (1 - j)) = (vnfOptions (i + 1)).ethPeer (1 - j : Fin 2) := by
  cases N <;> decide

theorem transmit_follows (N : ChainLength) (n : Nic) :
    Follows (path N n.other) (.tx (.nic n)) (.wire n) := by
  cases N <;> cases n <;> decide

theorem path_eq_append_entry (N : ChainLength) (n : Nic) :
    ∃ exits, path N n = exits ++ [.rx (.nic n)] ∧ .rx (.nic n) ∉ exits := by
  have hentry : ∃ exits, path N n = exits ++ [.rx (.nic n)] := by
    cases n with
    | nic0 => exact ⟨_, rfl⟩
    | nic1 => exact ⟨_, rfl⟩
  obtain ⟨exits, heq⟩ := hentry
  refine ⟨exits, heq, fun hmem => ?_⟩
  have hnodup := path_nodup N n
  rw [heq, List.nodup_append] at hnodup
  exact hnodup.2.2 _ hmem _ (by simp) rfl

theorem wire_sublist_contents (N : ChainLength) (n : Nic) (s : State α) :
    ((s.queue (.wire n.other)).map Packet.payload).Sublist
      (contents Packet.payload (path N n) s.queue) := by
  cases n with
  | nic0 => exact List.sublist_append_left _ _
  | nic1 => exact List.sublist_append_left _ _

/-! ## What one step does -/

/-- `pkt` leaves queue `src` and enters `dst` as `pkt'`, one hop further on its
path. -/
structure Hop (N : ChainLength) (src dst : Queue) (pkt pkt' : Packet α) : Prop where
  follows : Follows (path N (flowOf src)) src dst
  payload : pkt'.payload = pkt.payload
  visited : pkt.visited = visitedAt N src → pkt'.visited = visitedAt N dst
  address : ∀ p, dst = .rx p → pkt'.dst = dstAt p

theorem hop_forward (N : ChainLength) {p : Port} (hp : p ∈ ports N)
    (pkt : Packet α) : Hop N (.rx p) (.tx (chainNext N p)) pkt pkt := by
  obtain ⟨hfollows, hvisited⟩ := forward_follows N p hp
  refine ⟨hfollows, rfl, ?_, ?_⟩
  · intro h
    rw [h, hvisited]
  · intro q hq
    cases hq

theorem hop_vnf (N : ChainLength) {k : ℕ} (hk : 1 ≤ k ∧ k ≤ N.vnfs) (j : Fin 2)
    (pkt : Packet α) :
    Hop N (.tx (vnfPort k j)) (.rx (vnfPort k (1 - j))) pkt
      (macForward k (1 - j) pkt) := by
  obtain ⟨i, rfl⟩ : ∃ i, k = i + 1 := ⟨k - 1, by omega⟩
  obtain ⟨hfollows, hvisited, haddress⟩ := vnf_follows N i (by omega) j
  refine ⟨hfollows, rfl, ?_, ?_⟩
  · intro h
    rw [hvisited, ← h]
    rfl
  · intro q hq
    cases hq
    exact haddress.symm

theorem hop_transmit (N : ChainLength) (n : Nic) (pkt : Packet α) :
    Hop N (.tx (.nic n)) (.wire n) pkt pkt := by
  refine ⟨transmit_follows N n, rfl, ?_, ?_⟩
  · intro h
    rw [h]
    rfl
  · intro q hq
    cases hq

def Action.IsDrop : Action α → Prop
  | .drop _ _ => True
  | _ => False

def Action.IsHop : Action α → Prop
  | .forward _ => True
  | .vnf _ _ => True
  | .transmit _ => True
  | .inject _ _ _ => False
  | .drop _ _ => False

theorem step_cases {N : ChainLength} {s t : State α} {a : Action α}
    (h : step N (chainSwitch N) s a = some t) :
    (¬a.IsHop ∧ ∃ n src payload,
      t.queue = FifoPath.push s.queue (.rx (.nic n))
        { dst := injectDst n, src, payload, visited := [] } ∧
      t.sent = Function.update s.sent n (s.sent n ++ [payload])) ∨
    (∃ src dst pkt pkt' rest, s.queue src = pkt :: rest ∧
      t = s.move src dst pkt' rest ∧ Hop N src dst pkt pkt') ∨
    (a.IsDrop ∧ ¬a.IsHop ∧
      ∃ q i, t = { s with queue := Function.update s.queue q ((s.queue q).eraseIdx i) }) := by
  cases a with
  | inject n src payload =>
      simp only [step, Option.some.injEq] at h
      subst h
      exact Or.inl ⟨id, n, src, payload, rfl, rfl⟩
  | forward p =>
      simp only [step, chainSwitch] at h
      split at h
      · next hp =>
          split at h
          · cases h
          · next pkt rest hqueue =>
              cases h
              exact Or.inr (Or.inl
                ⟨_, _, pkt, pkt, rest, hqueue, rfl, hop_forward N hp pkt⟩)
      · cases h
  | vnf k j =>
      simp only [step] at h
      split at h
      · next hk =>
          split at h
          · cases h
          · next pkt rest hqueue =>
              cases h
              exact Or.inr (Or.inl ⟨_, _, pkt, _, rest, hqueue, rfl, hop_vnf N hk j pkt⟩)
      · cases h
  | transmit n =>
      simp only [step] at h
      split at h
      · cases h
      · next pkt rest hqueue =>
          cases h
          exact Or.inr (Or.inl
            ⟨_, _, pkt, pkt, rest, hqueue, rfl, hop_transmit N n pkt⟩)
  | drop q i =>
      cases q with
      | wire n => cases h
      | rx p =>
          cases h
          exact Or.inr (Or.inr ⟨trivial, id, _, i, rfl⟩)
      | tx p =>
          cases h
          exact Or.inr (Or.inr ⟨trivial, id, _, i, rfl⟩)

/-! ## The invariant -/

structure Inv (N : ChainLength) (s : State α) : Prop where
  visited : ∀ q, ∀ pkt ∈ s.queue q, pkt.visited = visitedAt N q
  address : ∀ p, ∀ pkt ∈ s.queue (.rx p), pkt.dst = dstAt p
  order : ∀ n, (contents Packet.payload (path N n) s.queue).Sublist (s.sent n)

theorem inv_init (N : ChainLength) : Inv N (init : State α) := by
  refine ⟨?_, ?_, ?_⟩
  · intro q pkt hpkt
    simp [init] at hpkt
  · intro p pkt hpkt
    simp [init] at hpkt
  · intro n
    simp [init, contents]

theorem contents_hop {N : ChainLength} {s : State α} {src dst : Queue}
    {pkt pkt' : Packet α} {rest : List (Packet α)} (hhop : Hop N src dst pkt pkt')
    (hsrc : s.queue src = pkt :: rest) (n : Nic) :
    contents Packet.payload (path N n) (s.move src dst pkt' rest).queue =
      contents Packet.payload (path N n) s.queue := by
  by_cases hflow : flowOf src = n
  · subst hflow
    exact FifoPath.contents_move _ (path_nodup N _) hhop.follows hsrc hhop.payload
  · have hoff : ∀ q ∈ path N (flowOf src), q ∉ path N n := by
      intro q hq hq'
      exact hflow ((flowOf_of_mem_path N _ q hq).symm.trans (flowOf_of_mem_path N _ q hq'))
    apply FifoPath.contents_move_off
    · exact hoff src (hhop.follows.subset (by simp))
    · exact hoff dst (hhop.follows.subset (by simp))

theorem inv_inject {N : ChainLength} {s t : State α} (hs : Inv N s) {n : Nic}
    {src : Mac} {payload : α}
    (hqueue : t.queue = FifoPath.push s.queue (.rx (.nic n))
      { dst := injectDst n, src, payload, visited := [] })
    (hsent : t.sent = Function.update s.sent n (s.sent n ++ [payload])) :
    Inv N t := by
  refine ⟨?_, ?_, ?_⟩
  · intro q pkt hpkt
    rw [hqueue] at hpkt
    rcases FifoPath.mem_push hpkt with hold | ⟨rfl, rfl⟩
    · exact hs.visited q pkt hold
    · rfl
  · intro p pkt hpkt
    rw [hqueue] at hpkt
    rcases FifoPath.mem_push hpkt with hold | ⟨heq, rfl⟩
    · exact hs.address p pkt hold
    · cases heq
      rfl
  · intro m
    rw [hqueue, hsent]
    by_cases hmn : m = n
    · subst hmn
      obtain ⟨exits, hpath, hentry⟩ := path_eq_append_entry N m
      have hold := hs.order m
      rw [hpath] at hold ⊢
      rw [FifoPath.contents_push_entry _ hentry, Function.update_self]
      exact hold.append (List.Sublist.refl _)
    · have hoff : Queue.rx (.nic n) ∉ path N m := by
        intro hmem
        exact hmn (flowOf_of_mem_path N m _ hmem).symm
      rw [FifoPath.contents_push_of_notMem _ hoff, Function.update_of_ne hmn]
      exact hs.order m

theorem inv_hop {N : ChainLength} {s : State α} (hs : Inv N s) {src dst : Queue}
    {pkt pkt' : Packet α} {rest : List (Packet α)} (hsrc : s.queue src = pkt :: rest)
    (hhop : Hop N src dst pkt pkt') : Inv N (s.move src dst pkt' rest) := by
  have hrest : rest ⊆ s.queue src := by
    rw [hsrc]
    exact List.subset_cons_self pkt rest
  refine ⟨?_, ?_, ?_⟩
  · intro q x hx
    rcases FifoPath.mem_push hx with hold | ⟨rfl, rfl⟩
    · exact hs.visited q x (FifoPath.mem_of_mem_update hrest hold)
    · exact hhop.visited (hs.visited src pkt (by simp [hsrc]))
  · intro p x hx
    rcases FifoPath.mem_push hx with hold | ⟨heq, rfl⟩
    · exact hs.address p x (FifoPath.mem_of_mem_update hrest hold)
    · exact hhop.address p heq.symm
  · intro n
    rw [contents_hop hhop hsrc n]
    exact hs.order n

theorem inv_drop {N : ChainLength} {s : State α} (hs : Inv N s) (q : Queue) (i : ℕ) :
    Inv N { s with queue := Function.update s.queue q ((s.queue q).eraseIdx i) } := by
  have hrest : (s.queue q).eraseIdx i ⊆ s.queue q :=
    (List.eraseIdx_sublist _ i).subset
  refine ⟨?_, ?_, ?_⟩
  · intro j pkt hpkt
    exact hs.visited j pkt (FifoPath.mem_of_mem_update hrest hpkt)
  · intro p pkt hpkt
    exact hs.address p pkt (FifoPath.mem_of_mem_update hrest hpkt)
  · intro n
    exact (FifoPath.contents_drop_sublist _ _ _ q i).trans (hs.order n)

theorem inv_step {N : ChainLength} (s : State α) (a : Action α) (t : State α)
    (hs : Inv N s) (h : step N (chainSwitch N) s a = some t) : Inv N t := by
  rcases step_cases h with ⟨-, n, src, payload, hqueue, hsent⟩ |
    ⟨src, dst, pkt, pkt', rest, hsrc, rfl, hhop⟩ | ⟨-, -, q, i, rfl⟩
  · exact inv_inject hs hqueue hsent
  · exact inv_hop hs hsrc hhop
  · exact inv_drop hs q i

/-! ## Agreement -/

theorem step_eq_of_switch_eq {N : ChainLength} {sw sw' : Port → Packet α → Option Port}
    {s : State α}
    (hsw : ∀ p ∈ ports N, ∀ pkt ∈ s.queue (.rx p), sw p pkt = sw' p pkt)
    (a : Action α) : step N sw s a = step N sw' s a := by
  cases a with
  | forward p =>
      simp only [step]
      split_ifs with hp
      · cases hqueue : s.queue (.rx p) with
        | nil => rfl
        | cons pkt rest =>
            dsimp only
            rw [hsw p hp pkt (by simp [hqueue])]
      · rfl
  | inject n src payload => rfl
  | vnf k j => rfl
  | transmit n => rfl
  | drop q i => cases q <;> rfl

/-- A decision that is the chain's for the packets that can come to a port goes on as the
chain does, wherever the invariant holds. -/
theorem exec_eq_chain (N : ChainLength) (sw : Port → Packet α → Option Port)
    (hsw : ∀ p ∈ ports N, ∀ pkt : Packet α, pkt.dst = dstAt p →
      sw p pkt = chainSwitch N p pkt) (acts : List (Action α)) {s : State α} (hs : Inv N s) :
    exec (step N sw) acts s = exec (step N (chainSwitch N)) acts s := by
  symm
  apply exec_congr inv_step _ acts hs
  intro s a hs
  apply step_eq_of_switch_eq
  intro p hp pkt hpkt
  exact (hsw p hp pkt (hs.address p pkt hpkt)).symm

/-- All three configurations have the same runs; in every state of every run the
head packet received on a port goes to corresponding output ports; and what
leaves at one NIC was injected at the other, has passed all VNFs in order, and
leaves in the order of injection. -/
theorem loopback_wirings_agree (N : ChainLength) (acts : List (Action α)) :
    exec (step N (ovsSwitch N)) acts init =
      exec (step N (t4p4sSwitch N)) acts (init : State α) ∧
    exec (step N (snabbSwitch N)) acts init =
      exec (step N (t4p4sSwitch N)) acts (init : State α) ∧
    ∀ s, exec (step N (t4p4sSwitch N)) acts init = some s →
      (∀ p ∈ ports N, ∀ pkt rest, s.queue (.rx p) = pkt :: rest →
        ∃ out ∈ ports N,
          t4p4sLookup N pkt.dst = some (t4p4sPort out) ∧
          ovsLookup N (ofport p) = some (ofport out) ∧
          snabbLookup N (snabbApp p) = some (snabbApp out)) ∧
      ∀ n, ((s.queue (.wire n.other)).map Packet.payload).Sublist (s.sent n) ∧
        ∀ pkt ∈ s.queue (.wire n.other), pkt.visited = route N n := by
  have ht4p4s := exec_eq_chain (α := α) N (t4p4sSwitch N)
    (fun p hp pkt hdst => t4p4sSwitch_eq N hp hdst) acts (inv_init N)
  have hovs := exec_eq_chain (α := α) N (ovsSwitch N)
    (fun p hp pkt _ => ovsSwitch_eq N hp pkt) acts (inv_init N)
  have hsnabb := exec_eq_chain (α := α) N (snabbSwitch N)
    (fun p hp pkt _ => snabbSwitch_eq N hp pkt) acts (inv_init N)
  refine ⟨hovs.trans ht4p4s.symm, hsnabb.trans ht4p4s.symm, ?_⟩
  intro s hs
  have hinv : Inv N s := exec_invariant inv_step (inv_init N) (ht4p4s ▸ hs)
  refine ⟨?_, ?_⟩
  · intro p hp pkt rest hqueue
    refine ⟨chainNext N p, chainNext_mem N p hp, ?_, ?_, ?_⟩
    · rw [hinv.address p pkt (by simp [hqueue])]
      exact t4p4sLookup_dstAt N p hp
    · exact ovsLookup_ofport N p hp
    · exact snabbLookup_snabbApp N p hp
  · intro n
    refine ⟨(wire_sublist_contents N n s).trans (hinv.order n), ?_⟩
    intro pkt hpkt
    rw [hinv.visited _ pkt hpkt]
    cases n <;> rfl

theorem loopback_wirings_agree_twoWayRun :
    ∃ s, exec (step .two (t4p4sSwitch .two)) twoWayRun init = some s ∧
      s.sent .nic0 = [7, 9] ∧ (s.queue (.wire .nic1)).map Packet.payload = [7] ∧
      s.sent .nic1 = [8, 10] ∧ (s.queue (.wire .nic0)).map Packet.payload = [8] ∧
      ((s.queue (.wire .nic1)).map Packet.payload).Sublist (s.sent .nic0) ∧
      ((s.queue (.wire .nic0)).map Packet.payload).Sublist (s.sent .nic1) := by
  have h := ((loopback_wirings_agree .two twoWayRun).2.2 _ rfl).2
  exact ⟨_, rfl, by decide, by decide, by decide, by decide, (h .nic0).1, (h .nic1).1⟩

end SoftwareSwitches.Chain
