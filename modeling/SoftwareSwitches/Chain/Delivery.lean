import SoftwareSwitches.Chain.Switches

/-!
# Every packet arrives

As long as no queue drops a packet, everything that was injected is on its path in the
order of injection, and the switch, the VNFs and the NICs can always go on until all of it
has left at the other NIC.
-/

namespace SoftwareSwitches.Chain

open SoftwareSwitches.Lib
open SoftwareSwitches.Lib.Execution
open SoftwareSwitches.Lib.FifoPath (contents weight)

variable {α : Type}

theorem hop_of_step {N : ChainLength} {s t : State α} {a : Action α} (ha : a.IsHop)
    (h : step N (chainSwitch N) s a = some t) :
    ∃ src dst pkt pkt' rest, s.queue src = pkt :: rest ∧ t = s.move src dst pkt' rest ∧
      Hop N src dst pkt pkt' := by
  rcases step_cases h with ⟨hinject, -⟩ | hhop | ⟨-, hdrop, -⟩
  · exact absurd ha hinject
  · exact hhop
  · exact absurd ha hdrop

/-! ## Nothing is lost -/

structure Lossless (N : ChainLength) (s : State α) : Prop where
  inv : Inv N s
  order : ∀ n, contents Packet.payload (path N n) s.queue = s.sent n

theorem lossless_init (N : ChainLength) : Lossless N (init : State α) :=
  ⟨inv_init N, fun n => by simp [init, contents]⟩

theorem lossless_hop {N : ChainLength} {s : State α} (hs : Lossless N s) {src dst : Queue}
    {pkt pkt' : Packet α} {rest : List (Packet α)} (hsrc : s.queue src = pkt :: rest)
    (hhop : Hop N src dst pkt pkt') : Lossless N (s.move src dst pkt' rest) := by
  refine ⟨inv_hop hs.inv hsrc hhop, ?_⟩
  intro n
  rw [contents_hop hhop hsrc n]
  exact hs.order n

theorem lossless_inject {N : ChainLength} {s t : State α} (hs : Lossless N s) {n : Nic}
    {src : Mac} {payload : α}
    (hqueue : t.queue = FifoPath.push s.queue (.rx (.nic n))
      { dst := injectDst n, src, payload, visited := [] })
    (hsent : t.sent = Function.update s.sent n (s.sent n ++ [payload])) : Lossless N t := by
  refine ⟨inv_inject hs.inv hqueue hsent, ?_⟩
  intro m
  rw [hqueue, hsent]
  by_cases hmn : m = n
  · subst hmn
    obtain ⟨exits, hpath, hentry⟩ := path_eq_append_entry N m
    have hold := hs.order m
    rw [hpath] at hold ⊢
    rw [FifoPath.contents_push_entry _ hentry, Function.update_self, hold]
  · have hoff : Queue.rx (.nic n) ∉ path N m := by
      intro hmem
      exact hmn (flowOf_of_mem_path N m _ hmem).symm
    rw [FifoPath.contents_push_of_notMem _ hoff, Function.update_of_ne hmn]
    exact hs.order m

theorem lossless_step {N : ChainLength} {s t : State α} {a : Action α} (hs : Lossless N s)
    (ha : ¬a.IsDrop) (h : step N (chainSwitch N) s a = some t) : Lossless N t := by
  rcases step_cases h with ⟨-, n, src, payload, hqueue, hsent⟩ |
    ⟨src, dst, pkt, pkt', rest, hsrc, rfl, hhop⟩ | ⟨hdrop, -⟩
  · exact lossless_inject hs hqueue hsent
  · exact lossless_hop hs hsrc hhop
  · exact absurd hdrop ha

/-! ## Everything can go on -/

theorem path_eq_cons (N : ChainLength) (n : Nic) :
    ∃ entries, path N n = .wire n.other :: entries := by
  cases n with
  | nic0 => exact ⟨_, rfl⟩
  | nic1 => exact ⟨_, rfl⟩

theorem served_of_mem_tail (N : ChainLength) (n : Nic) : ∀ q ∈ (path N n).tail,
    (∃ p ∈ ports N, q = .rx p) ∨ q = .tx (.nic .nic0) ∨ q = .tx (.nic .nic1) ∨
      ∃ i < N.vnfs, ∃ j : Fin 2, q = .tx (vnfPort (i + 1) j) := by
  cases N <;> cases n <;> decide

theorem exists_hop {N : ChainLength} {n : Nic} {q : Queue} (hq : q ∈ (path N n).tail)
    {s : State α} (hne : s.queue q ≠ []) :
    ∃ a : Action α, a.IsHop ∧ ∃ t, step N (chainSwitch N) s a = some t := by
  obtain ⟨pkt, rest, hqueue⟩ := List.exists_cons_of_ne_nil hne
  rcases served_of_mem_tail N n q hq with ⟨p, hp, rfl⟩ | rfl | rfl | ⟨i, hi, j, rfl⟩
  · exact ⟨.forward p, trivial, by simp [step, hp, hqueue, chainSwitch]⟩
  · exact ⟨.transmit .nic0, trivial, by simp [step, hqueue]⟩
  · exact ⟨.transmit .nic1, trivial, by simp [step, hqueue]⟩
  · have hk : 1 ≤ i + 1 ∧ i + 1 ≤ N.vnfs := by omega
    exact ⟨.vnf (i + 1) j, trivial, by simp [step, hk, hqueue]⟩

def hopsLeft (N : ChainLength) (s : State α) : ℕ :=
  weight (path N .nic0) s.queue + weight (path N .nic1) s.queue

theorem weight_hop {N : ChainLength} {s : State α} {src dst : Queue} {pkt pkt' : Packet α}
    {rest : List (Packet α)} (hhop : Hop N src dst pkt pkt') (hsrc : s.queue src = pkt :: rest)
    (n : Nic) :
    weight (path N n) (s.move src dst pkt' rest).queue + (if flowOf src = n then 1 else 0) =
      weight (path N n) s.queue := by
  split_ifs with hflow
  · subst hflow
    exact FifoPath.weight_move (path_nodup N _) hhop.follows hsrc pkt'
  · have hoff : ∀ q ∈ path N (flowOf src), q ∉ path N n := by
      intro q hq hq'
      exact hflow ((flowOf_of_mem_path N _ q hq).symm.trans (flowOf_of_mem_path N _ q hq'))
    apply FifoPath.weight_move_off
    · exact hoff src (hhop.follows.subset (by simp))
    · exact hoff dst (hhop.follows.subset (by simp))

theorem hopsLeft_hop {N : ChainLength} {s : State α} {src dst : Queue} {pkt pkt' : Packet α}
    {rest : List (Packet α)} (hhop : Hop N src dst pkt pkt')
    (hsrc : s.queue src = pkt :: rest) :
    hopsLeft N (s.move src dst pkt' rest) + 1 = hopsLeft N s := by
  have hzero := weight_hop hhop hsrc .nic0
  have hone := weight_hop hhop hsrc .nic1
  unfold hopsLeft
  cases hflow : flowOf src with
  | nic0 =>
      simp only [hflow, if_true, reduceCtorEq, if_false] at hzero hone
      omega
  | nic1 =>
      simp only [hflow, if_true, reduceCtorEq, if_false] at hzero hone
      omega

theorem exists_hop_of_hopsLeft {N : ChainLength} {s : State α} (h : 0 < hopsLeft N s) :
    ∃ a : Action α, a.IsHop ∧ ∃ t, step N (chainSwitch N) s a = some t := by
  have hflow : ∃ n, 0 < weight (path N n) s.queue := by
    unfold hopsLeft at h
    by_cases hzero : 0 < weight (path N .nic0) s.queue
    · exact ⟨.nic0, hzero⟩
    · exact ⟨.nic1, by omega⟩
  obtain ⟨n, hpos⟩ := hflow
  obtain ⟨entries, hpath⟩ := path_eq_cons N n
  have hqueue : ∃ q ∈ (path N n).tail, s.queue q ≠ [] := by
    by_contra hnone
    push Not at hnone
    rw [hpath] at hpos hnone
    have hzero : weight (.wire n.other :: entries) s.queue = 0 :=
      FifoPath.weight_eq_zero _ hnone
    omega
  obtain ⟨q, hq, hne⟩ := hqueue
  exact exists_hop hq hne

theorem drains {N : ChainLength} {s : State α} (hs : Lossless N s) :
    ∃ more : List (Action α), (∀ a ∈ more, a.IsHop) ∧
      ∃ t, exec (step N (chainSwitch N)) more s = some t ∧ Lossless N t ∧ t.sent = s.sent ∧
        hopsLeft N t = 0 := by
  induction hleft : hopsLeft N s generalizing s with
  | zero => exact ⟨[], by simp, s, rfl, hs, rfl, hleft⟩
  | succ left ih =>
      obtain ⟨a, ha, t, hstep⟩ := exists_hop_of_hopsLeft (N := N) (s := s) (by omega)
      obtain ⟨src, dst, pkt, pkt', rest, hsrc, rfl, hhop⟩ := hop_of_step ha hstep
      have hless := hopsLeft_hop hhop hsrc
      obtain ⟨more, hmore, t, hrun, ht, hsent, hzero⟩ :=
        ih (lossless_hop hs hsrc hhop) (by omega)
      refine ⟨a :: more, ?_, t, exec_cons_eq_some.mpr ⟨_, hstep, hrun⟩, ht, hsent, hzero⟩
      intro b hb
      rcases List.mem_cons.mp hb with rfl | hb
      · exact ha
      · exact hmore b hb

theorem delivered_of_hopsLeft {N : ChainLength} {s : State α} (hs : Lossless N s)
    (h : hopsLeft N s = 0) (n : Nic) :
    (s.queue (.wire n.other)).map Packet.payload = s.sent n := by
  obtain ⟨entries, hpath⟩ := path_eq_cons N n
  have hweight : weight (path N n) s.queue = 0 := by
    unfold hopsLeft at h
    cases n <;> omega
  rw [← hs.order n, hpath]
  rw [hpath] at hweight
  exact (FifoPath.contents_of_weight_eq_zero _ hweight).symm

/-! ## The runs of the seven wirings -/

/-- All wirings have the same runs.  In a run without drops every packet is on its path,
in the order of injection, and whatever the state, the switch, the VNFs and the NICs can go
on so that at each NIC exactly what was injected at the other has left, in its order and
after passing every VNF in turn. -/
theorem wirings_deliver (w : Wiring) (N : ChainLength) (acts : List (Action α)) :
    (∀ w' : Wiring, exec (step N (w'.switch N)) acts (init : State α) =
      exec (step N (w.switch N)) acts init) ∧
    ∀ s, exec (step N (w.switch N)) acts init = some s → (∀ a ∈ acts, ¬a.IsDrop) →
      (∀ n, contents Packet.payload (path N n) s.queue = s.sent n) ∧
      ∃ more : List (Action α), (∀ a ∈ more, a.IsHop) ∧
        ∃ t, exec (step N (w.switch N)) more s = some t ∧
          ∀ n, (t.queue (.wire n.other)).map Packet.payload = s.sent n ∧
            ∀ pkt ∈ t.queue (.wire n.other), pkt.visited = route N n := by
  refine ⟨?_, ?_⟩
  · intro w'
    rw [w'.exec_eq N acts (inv_init N), w.exec_eq N acts (inv_init N)]
  intro s hrun hdrop
  rw [w.exec_eq N acts (inv_init N)] at hrun
  have hs : Lossless N s := by
    apply exec_invariant_of_mem _ (lossless_init N) hrun
    intro s a t ha hs hstep
    exact lossless_step hs (hdrop a ha) hstep
  obtain ⟨more, hmore, t, hexec, ht, hsent, hzero⟩ := drains hs
  refine ⟨hs.order, more, hmore, t, ?_, ?_⟩
  · rw [w.exec_eq N more hs.inv]
    exact hexec
  · intro n
    constructor
    · rw [delivered_of_hopsLeft ht hzero n, hsent]
    · intro pkt hpkt
      rw [ht.inv.visited _ pkt hpkt]
      cases n <;> rfl

theorem wirings_deliver_twoWayRun :
    ∃ s, exec (step .two (Wiring.bess.switch .two)) twoWayRun init = some s ∧
      exec (step .two (Wiring.vppL2patch.switch .two)) twoWayRun init = some s ∧
      (s.queue (.wire .nic1)).map Packet.payload = [7] ∧
      ∃ more, ∃ t, exec (step .two (Wiring.bess.switch .two)) more s = some t ∧
        (t.queue (.wire .nic1)).map Packet.payload = [7, 9] ∧
        (t.queue (.wire .nic0)).map Packet.payload = [8, 10] := by
  obtain ⟨hsame, hdeliver⟩ := wirings_deliver .bess .two twoWayRun
  obtain ⟨-, more, -, t, hexec, ht⟩ :=
    hdeliver _ rfl (by simp [twoWayRun, Action.IsDrop])
  refine ⟨_, rfl, ?_, by decide, more, t, hexec, (ht .nic0).1.trans ?_, (ht .nic1).1.trans ?_⟩
  · rw [hsame .vppL2patch]
    rfl
  · decide
  · decide

end SoftwareSwitches.Chain
