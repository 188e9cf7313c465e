import SoftwareSwitches.Ring.Runs

/-!
# No call is stuck

A call that has moved the head waits until all calls before it have moved the tail.  The
one whose turn it is can always go on, so the threads can bring every call to its end, in
whatever state they are.
-/

namespace SoftwareSwitches.Ring

open SoftwareSwitches.Lib.Execution
open SoftwareSwitches.Lib.Tickets

variable {τ α : Type} [DecidableEq τ]

def Reaches (s s' : State τ α) : Prop :=
  ∃ more : List (Action τ α), (∀ a ∈ more, ∃ u, a = .next u) ∧
    exec (guarded Fresh step) more s = some s'

theorem Reaches.refl (s : State τ α) : Reaches s s :=
  ⟨[], by simp, rfl⟩

theorem Reaches.trans {s₁ s₂ s₃ : State τ α} (h₁ : Reaches s₁ s₂) (h₂ : Reaches s₂ s₃) :
    Reaches s₁ s₃ := by
  obtain ⟨more₁, hnext₁, hrun₁⟩ := h₁
  obtain ⟨more₂, hnext₂, hrun₂⟩ := h₂
  refine ⟨more₁ ++ more₂, ?_, ?_⟩
  · intro a ha
    rcases List.mem_append.mp ha with ha | ha
    · exact hnext₁ a ha
    · exact hnext₂ a ha
  · rw [exec_append, hrun₁]
    exact hrun₂

theorem reaches_next {s s' : State τ α} {t : τ} (hfresh : Fresh s (.next t : Action τ α))
    (h : s.next t (s.threads t) = some s') : Reaches s s' := by
  refine ⟨[.next t], ?_, ?_⟩
  · intro a ha
    exact ⟨t, List.mem_singleton.mp ha⟩
  · exact exec_cons_eq_some.mpr ⟨s', guarded_eq_some.mpr ⟨hfresh, h⟩, rfl⟩

omit [DecidableEq τ] in
theorem fresh_of_lag {s : State τ α} {t : τ} (h : s.lag t = 0) :
    Fresh s (.next t : Action τ α) := by
  have hlt := s.ring.capacity.isLt
  simp only [Fresh, h]
  omega

/-! ## A call whose turn it is -/

structure Finishes (policy : Policy τ) (s s' : State τ α) (u : τ) (sd : Side) (n : ℕ) : Prop where
  reaches : Reaches s s'
  inv : Inv policy s'
  idle : s'.threads u = .idle
  others : ∀ v ≠ u, s'.threads v = s.threads v
  taken : s'.taken = s.taken
  passed : (s'.passed sd).length = (s.passed sd).length + n

variable {policy : Policy τ} {s s₁ s' : State τ α} {u : τ} {sd : Side} {n : ℕ}

theorem Finishes.after (h : Finishes policy s₁ s' u sd n) (hreaches : Reaches s s₁)
    (hothers : ∀ v ≠ u, s₁.threads v = s.threads v) (htaken : s₁.taken = s.taken)
    (hpassed : s₁.passed = s.passed) : Finishes policy s s' u sd n := by
  refine ⟨hreaches.trans h.reaches, h.inv, h.idle, ?_, h.taken.trans htaken, ?_⟩
  · intro v hv
    rw [h.others v hv, hothers v hv]
  · rw [h.passed, hpassed]

theorem finish_storeTail {c : Call α} {l : Locals} (h : Inv policy s)
    (hpc : s.threads u = .storeTail c l) :
    Finishes policy s (s.pass u c l) u c.side l.n.toNat := by
  have hfresh : Fresh s (.next u : Action τ α) := by
    apply fresh_of_lag
    simp [State.lag, hpc]
  have hnext : s.next u (s.threads u) = some (s.pass u c l) := by
    rw [hpc]
    rfl
  refine ⟨reaches_next hfresh hnext, h.pass hpc, Function.update_self _ _ _, ?_, rfl, ?_⟩
  · intro v hv
    exact Function.update_of_ne hv _ _
  · rw [State.pass_passed, if_pos rfl, List.length_append, length_objects]

theorem finish_copy {todo : List (ℕ × ℕ)} {c : Call α} {l : Locals} (h : Inv policy s)
    (hpc : s.threads u = .copy c l todo) (hturn : l.stamp = (s.passed c.side).length) :
    ∃ s', Finishes policy s s' u c.side l.n.toNat := by
  induction todo generalizing s c with
  | nil =>
      have hfresh : Fresh s (.next u : Action τ α) := by
        apply fresh_of_lag
        simp [State.lag, hpc]
      have hthread := h.threads u
      rw [hpc] at hthread
      have htail : (s.ring.ht c.side).tail = l.oldHead := by
        rw [h.tail, hthread.2.1, hturn]
      have hnext : s.next u (s.threads u) = some (s.setPc u (.storeTail c l)) := by
        rw [hpc]
        simp [State.next, htail]
      have hinv := inv_next h hfresh hnext
      have hfinish := finish_storeTail hinv (State.setPc_self s u (.storeTail c l))
      refine ⟨_, hfinish.after (reaches_next hfresh hnext) ?_ rfl rfl⟩
      intro v hv
      exact State.setPc_of_ne hv
  | cons slot todo ih =>
      have hfresh : Fresh s (.next u : Action τ α) := by
        apply fresh_of_lag
        simp [State.lag, hpc]
      obtain ⟨idx, i⟩ := slot
      have hnext : s.next u (s.threads u) = some (s.copy u c l idx i todo) := by
        rw [hpc]
        rfl
      have hinv := inv_next h hfresh hnext
      obtain ⟨⟨c', hside, hthreads⟩, -, htaken, hpassed⟩ :=
        s.copy_frame u c l idx i todo
      have hpc' : (s.copy u c l idx i todo).threads u = .copy c' l todo := by
        rw [hthreads, State.setPc_self]
      have hturn' : l.stamp = ((s.copy u c l idx i todo).passed c'.side).length := by
        rw [hpassed, hside, hturn]
      obtain ⟨s', hfinish⟩ := ih hinv hpc' hturn'
      rw [hside] at hfinish
      refine ⟨s', hfinish.after (reaches_next hfresh hnext) ?_ htaken hpassed⟩
      intro v hv
      rw [hthreads, State.setPc_of_ne hv]

theorem finish_claim (h : Inv policy s)
    (hclaim : (s.threads u).claim sd = some ((s.passed sd).length, n)) :
    ∃ s', Finishes policy s s' u sd n := by
  cases hpc : s.threads u with
  | idle =>
      rw [hpc] at hclaim
      cases hclaim
  | loadHead c =>
      rw [hpc] at hclaim
      cases hclaim
  | loadTail c oldHead stamp =>
      rw [hpc] at hclaim
      cases hclaim
  | moveHead c l =>
      rw [hpc] at hclaim
      cases hclaim
  | copy c l todo =>
      simp only [hpc, Pc.claim] at hclaim
      split_ifs at hclaim with hside
      subst hside
      rw [Option.some.injEq, Prod.mk.injEq] at hclaim
      rw [← hclaim.2]
      exact finish_copy h hpc hclaim.1
  | storeTail c l =>
      simp only [hpc, Pc.claim] at hclaim
      split_ifs at hclaim with hside
      subst hside
      rw [Option.some.injEq, Prod.mk.injEq] at hclaim
      rw [← hclaim.2]
      exact ⟨_, finish_storeTail h hpc⟩

/-! ## All calls before -/

structure Drains (policy : Policy τ) (s s' : State τ α) (sd : Side) : Prop where
  reaches : Reaches s s'
  inv : Inv policy s'
  taken : s'.taken = s.taken
  passed : (s'.passed sd).length = s'.taken sd
  holders : ∀ v, (s.threads v).claim sd ≠ none → s'.threads v = .idle
  others : ∀ v, (s.threads v).claim sd = none → s'.threads v = s.threads v

theorem drains_side (h : Inv policy s) (sd : Side) : ∃ s', Drains policy s s' sd := by
  induction hleft : s.taken sd - (s.passed sd).length using Nat.strong_induction_on
    generalizing s with
  | _ left ih =>
      have hle := (h.tiles sd).tail_le
      by_cases hdone : (s.passed sd).length = s.taken sd
      · refine ⟨s, Reaches.refl s, h, rfl, hdone, ?_, fun v _ => rfl⟩
        intro v hv
        obtain ⟨⟨start, n⟩, hclaim⟩ := Option.ne_none_iff_exists'.mp hv
        have hwithin := (h.tiles sd).within v start n hclaim
        omega
      · obtain ⟨u, n, hclaim⟩ := (h.tiles sd).first (by omega)
        have hwithin := (h.tiles sd).within u _ n hclaim
        obtain ⟨s₁, hfinish⟩ := finish_claim h hclaim
        have hless : s₁.taken sd - (s₁.passed sd).length < left := by
          rw [hfinish.taken, hfinish.passed]
          omega
        obtain ⟨s₂, hdrain⟩ := ih _ hless hfinish.inv rfl
        refine ⟨s₂, hfinish.reaches.trans hdrain.reaches, hdrain.inv,
          hdrain.taken.trans hfinish.taken, hdrain.passed, ?_, ?_⟩
        · intro v hv
          by_cases hvu : v = u
          · subst hvu
            have hidle : (s₁.threads v).claim sd = none := by
              rw [hfinish.idle]
              rfl
            rw [hdrain.others v hidle, hfinish.idle]
          · apply hdrain.holders v
            rwa [hfinish.others v hvu]
        · intro v hv
          have hvu : v ≠ u := by
            intro heq
            rw [heq, hclaim] at hv
            cases hv
          rw [hdrain.others v (by rwa [hfinish.others v hvu]), hfinish.others v hvu]

/-! ## A call on its own -/

section

variable {t : τ} {c : Call α} {l : Locals}

theorem alone_moveHead (h : Inv policy s) (hpc : s.threads t = .moveHead c l)
    (hstamp : l.stamp = s.taken c.side) (hdrained : (s.passed c.side).length = s.taken c.side) :
    ∃ s', Reaches s s' ∧ s'.threads t = .idle := by
  have hthread := h.threads t
  rw [hpc] at hthread
  have hfresh : Fresh s (.next t : Action τ α) := by
    apply fresh_of_lag
    simp [State.lag, hpc, hstamp]
  have hhead : (s.ring.ht c.side).head = l.oldHead := by
    rw [h.head, hthread.2.1.bits, hstamp]
  have hnext : s.next t (s.threads t) = some (s.take t c l) := by
    rw [hpc]
    simp [State.next, hhead]
  have hturn : l.stamp = ((s.take t c l).passed c.side).length :=
    hstamp.trans hdrained.symm
  obtain ⟨s', hfinish⟩ := finish_copy (inv_next h hfresh hnext) (State.setPc_self _ _ _) hturn
  exact ⟨s', (reaches_next hfresh hnext).trans hfinish.reaches, hfinish.idle⟩

theorem next_loadTail {oldHead : BitVec 32} {stamp : ℕ}
    (hpc : s.threads t = .loadTail c oldHead stamp) :
    ∃ s', s.next t (s.threads t) = some s' ∧ s'.taken = s.taken ∧ s'.passed = s.passed ∧
      (s'.threads t = .idle ∨
        ∃ l : Locals, s'.threads t = .moveHead c l ∧ l.stamp = stamp) := by
  rw [hpc]
  simp only [State.next]
  split_ifs
  · exact ⟨_, rfl, rfl, rfl, Or.inl (State.setPc_self _ _ _)⟩
  · exact ⟨_, rfl, rfl, rfl, Or.inr ⟨_, State.setPc_self _ _ _, rfl⟩⟩

theorem alone_loadHead (h : Inv policy s) (hpc : s.threads t = .loadHead c)
    (hdrained : (s.passed c.side).length = s.taken c.side) :
    ∃ s', Reaches s s' ∧ s'.threads t = .idle := by
  have hfresh : Fresh s (.next t : Action τ α) := by
    apply fresh_of_lag
    simp [State.lag, hpc]
  have hnext : s.next t (s.threads t) =
      some (s.setPc t (.loadTail c (s.ring.ht c.side).head (s.taken c.side))) := by
    rw [hpc]
    rfl
  generalize hs₁ : s.setPc t (.loadTail c (s.ring.ht c.side).head (s.taken c.side)) = s₁ at hnext
  have hpc₁ : s₁.threads t = .loadTail c (s.ring.ht c.side).head (s.taken c.side) := by
    rw [← hs₁, State.setPc_self]
  have htaken₁ : s₁.taken = s.taken := by
    rw [← hs₁]
    rfl
  have hpassed₁ : s₁.passed = s.passed := by
    rw [← hs₁]
    rfl
  have hfresh₁ : Fresh s₁ (.next t : Action τ α) := by
    apply fresh_of_lag
    simp [State.lag, hpc₁, htaken₁]
  have hinv₁ := inv_next h hfresh hnext
  obtain ⟨s₂, hnext₂, htaken₂, hpassed₂, hcase⟩ := next_loadTail hpc₁
  have hreaches := (reaches_next hfresh hnext).trans (reaches_next hfresh₁ hnext₂)
  rcases hcase with hidle | ⟨l, hmove, hstamp⟩
  · exact ⟨s₂, hreaches, hidle⟩
  · have hinv₂ := inv_next hinv₁ hfresh₁ hnext₂
    obtain ⟨s₃, hend, hidle⟩ := alone_moveHead hinv₂ hmove
      (by rw [hstamp, htaken₂, htaken₁]) (by rw [hpassed₂, hpassed₁, htaken₂, htaken₁, hdrained])
    exact ⟨s₃, hreaches.trans hend, hidle⟩

theorem alone_moveHead_of_fresh (h : Inv policy s) (hpc : s.threads t = .moveHead c l)
    (hfresh : Fresh s (.next t : Action τ α))
    (hdrained : (s.passed c.side).length = s.taken c.side) :
    ∃ s', Reaches s s' ∧ s'.threads t = .idle := by
  by_cases hmove : c.single = true ∨ (s.ring.ht c.side).head = l.oldHead
  · exact alone_moveHead h hpc (h.stamp_eq_taken hpc hfresh hmove) hdrained
  · have hnext : s.next t (s.threads t) = some (s.setPc t (.loadHead c)) := by
      rw [hpc]
      simp only [State.next]
      rw [if_neg hmove]
    obtain ⟨s', hend, hidle⟩ :=
      alone_loadHead (inv_next h hfresh hnext) (State.setPc_self _ _ _) hdrained
    exact ⟨s', (reaches_next hfresh hnext).trans hend, hidle⟩

theorem alone_loadTail {oldHead : BitVec 32} {stamp : ℕ} (h : Inv policy s)
    (hpc : s.threads t = .loadTail c oldHead stamp) (hfresh : Fresh s (.next t : Action τ α))
    (hdrained : (s.passed c.side).length = s.taken c.side) :
    ∃ s', Reaches s s' ∧ s'.threads t = .idle := by
  obtain ⟨s₁, hnext, htaken, hpassed, hcase⟩ := next_loadTail hpc
  rcases hcase with hidle | ⟨l, hmove, hstamp⟩
  · exact ⟨s₁, reaches_next hfresh hnext, hidle⟩
  · have hfresh₁ : Fresh s₁ (.next t : Action τ α) := by
      have hcapacity := capacity_next hnext
      simp only [Fresh, State.lag, hpc] at hfresh
      simp only [Fresh, State.lag, hmove, hstamp, htaken, hcapacity]
      exact hfresh
    obtain ⟨s', hend, hidle⟩ := alone_moveHead_of_fresh (inv_next h hfresh hnext) hmove hfresh₁
      (by rw [hpassed, htaken, hdrained])
    exact ⟨s', (reaches_next hfresh hnext).trans hend, hidle⟩

end

theorem drained_around {t : τ} (h : Inv policy s) (hfresh : Fresh s (.next t : Action τ α))
    (sd : Side) (hclaim : (s.threads t).claim sd = none) :
    ∃ s₁, Reaches s s₁ ∧ Inv policy s₁ ∧ s₁.threads t = s.threads t ∧
      (s₁.passed sd).length = s₁.taken sd ∧ Fresh s₁ (.next t : Action τ α) := by
  obtain ⟨s₁, hdrain⟩ := drains_side h sd
  have hthreads := hdrain.others t hclaim
  refine ⟨s₁, hdrain.reaches, hdrain.inv, hthreads, hdrain.passed, ?_⟩
  obtain ⟨more, -, hrun⟩ := hdrain.reaches
  simp only [Fresh, State.lag, hthreads, hdrain.taken, capacity_run hrun]
  exact hfresh

/-- Whatever state the threads have got each other into, a call that does not rely on an
outdated head can be brought to its end without a new call: no wait for the tail and no
retry at the head has to last for ever. -/
theorem ring_calls_return (policy : Policy τ) (name : List UInt8) (count flags : BitVec 32)
    (r : RteRing) (hinit : rteRingInit name count flags = (0, r)) (hr : r.WellFormed)
    (slots : ℕ → α) (acts : List (Action τ α)) (hacts : ∀ a ∈ acts, a.Permitted policy)
    (s : State τ α) (hrun : exec (guarded Fresh step) acts (State.init r slots) = some s) (t : τ)
    (hfresh : Fresh s (.next t : Action τ α)) :
    ∃ s', Reaches s s' ∧ s'.threads t = .idle := by
  have h := inv_run hacts (inv_init policy hinit hr slots) hrun
  have hholder : ∀ sd, (s.threads t).claim sd ≠ none →
      ∃ s', Reaches s s' ∧ s'.threads t = .idle := by
    intro sd hclaim
    obtain ⟨s', hdrain⟩ := drains_side h sd
    exact ⟨s', hdrain.reaches, hdrain.holders t hclaim⟩
  cases hpc : s.threads t with
  | idle => exact ⟨s, Reaches.refl s, hpc⟩
  | loadHead c =>
      obtain ⟨s₁, hreaches, hinv, hthread, hdrained, -⟩ :=
        drained_around h hfresh c.side (by rw [hpc]; rfl)
      obtain ⟨s', hend, hidle⟩ := alone_loadHead hinv (hthread.trans hpc) hdrained
      exact ⟨s', hreaches.trans hend, hidle⟩
  | loadTail c oldHead stamp =>
      obtain ⟨s₁, hreaches, hinv, hthread, hdrained, hfresh₁⟩ :=
        drained_around h hfresh c.side (by rw [hpc]; rfl)
      obtain ⟨s', hend, hidle⟩ := alone_loadTail hinv (hthread.trans hpc) hfresh₁ hdrained
      exact ⟨s', hreaches.trans hend, hidle⟩
  | moveHead c l =>
      obtain ⟨s₁, hreaches, hinv, hthread, hdrained, hfresh₁⟩ :=
        drained_around h hfresh c.side (by rw [hpc]; rfl)
      obtain ⟨s', hend, hidle⟩ := alone_moveHead_of_fresh hinv (hthread.trans hpc) hfresh₁ hdrained
      exact ⟨s', hreaches.trans hend, hidle⟩
  | copy c l todo =>
      apply hholder c.side
      simp [hpc, Pc.claim]
  | storeTail c l =>
      apply hholder c.side
      simp [hpc, Pc.claim]

/-- The first producer is waiting for the second, which has not copied anything yet. -/
def halfway : List (Action ℕ ℕ) :=
  threeThreads.take 13

theorem ring_calls_return_halfway :
    ∃ s, exec (guarded Fresh step) halfway (State.init fourSlots fun _ => 0) = some s ∧
      s.passed .prod = [] ∧ ∃ s', Reaches s s' ∧ s'.threads 0 = .idle := by
  refine ⟨_, rfl, ?_, ?_⟩
  · decide
  · apply ring_calls_return (fun _ => none) [] 4 0 fourSlots rfl fourSlots_wellFormed (fun _ => 0)
      halfway
    · intro a ha
      exact threeThreads_permitted a (List.mem_of_mem_take ha)
    · rfl
    · decide

end SoftwareSwitches.Ring
