import SoftwareSwitches.Ring.Invariant

/-!
# Runs of the ring

Any number of threads, each in its own calls, in any interleaving.
-/

namespace SoftwareSwitches.Ring

open SoftwareSwitches.Lib.Execution
open SoftwareSwitches.Lib.Tickets

variable {τ α : Type}

/-! ## One access -/

theorem ofNat_eq_of_lt {a b : ℕ} (h : BitVec.ofNat 32 a = BitVec.ofNat 32 b) (hle : b ≤ a)
    (hlt : a < b + 2 ^ 32) : a = b := by
  have hmod := congrArg BitVec.toNat h
  rw [BitVec.toNat_ofNat, BitVec.toNat_ofNat] at hmod
  omega

theorem ThreadOk.permitted_of_claim {policy : Policy τ} {s : State τ α} {u : τ} {pc : Pc α}
    (h : ThreadOk policy s u pc) {sd : Side} {start n : ℕ}
    (hclaim : pc.claim sd = some (start, n)) (hsome : (policy sd).isSome) :
    policy sd = some u := by
  cases pc with
  | idle => cases hclaim
  | loadHead c => cases hclaim
  | loadTail c oldHead stamp => cases hclaim
  | moveHead c l => cases hclaim
  | copy c l todo =>
      simp only [Pc.claim] at hclaim
      split_ifs at hclaim with hside
      subst hside
      exact h.1.alone hsome
  | storeTail c l =>
      simp only [Pc.claim] at hclaim
      split_ifs at hclaim with hside
      subst hside
      exact h.1.alone hsome

theorem Permitted.isSome_of_single {policy : Policy τ} {t : τ} {c : Call α}
    (h : Permitted policy t c) (hsingle : c.single = true) : (policy c.side).isSome := by
  unfold Permitted at h
  cases hpolicy : policy c.side with
  | none =>
      rw [hpolicy, hsingle] at h
      cases h
  | some u => rfl

section

variable [DecidableEq τ] {policy : Policy τ} {s s' : State τ α} {t : τ} {c : Call α} {l : Locals}

omit [DecidableEq τ] in
theorem Inv.stamp_eq_taken (h : Inv policy s) (hpc : s.threads t = .moveHead c l)
    (hfresh : Fresh s (.next t : Action τ α))
    (hmove : c.single = true ∨ (s.ring.ht c.side).head = l.oldHead) :
    l.stamp = s.taken c.side := by
  have hthread := h.threads t
  rw [hpc] at hthread
  obtain ⟨hpermitted, hlooking, -, -⟩ := hthread
  rcases hmove with hsingle | hhead
  · exact hlooking.alone (hpermitted.isSome_of_single hsingle)
  · rw [h.head, hlooking.bits] at hhead
    simp only [Fresh, State.lag, hpc] at hfresh
    exact (ofNat_eq_of_lt hhead hlooking.le (by omega)).symm

omit [DecidableEq τ] in
theorem Inv.stamp_eq_passed (h : Inv policy s) {todo : List (ℕ × ℕ)}
    (hpc : s.threads t = .copy c l todo)
    (hturn : c.single = true ∨ (s.ring.ht c.side).tail = l.oldHead) :
    l.stamp = (s.passed c.side).length := by
  have hthread := h.threads t
  rw [hpc] at hthread
  obtain ⟨hpermitted, hbits, -⟩ := hthread
  have hclaim : (s.threads t).claim c.side = some (l.stamp, l.n.toNat) := by
    rw [hpc]
    exact if_pos rfl
  have hwithin := (h.tiles c.side).within t _ _ hclaim
  rcases hturn with hsingle | htail
  · have hsome := hpermitted.isSome_of_single hsingle
    obtain ⟨u, n, hu⟩ := (h.tiles c.side).first (by omega)
    have hut : policy c.side = some u := (h.threads u).permitted_of_claim hu hsome
    rw [hpermitted.alone hsome] at hut
    cases hut
    rw [hclaim, Option.some.injEq, Prod.mk.injEq] at hu
    exact hu.1
  · rw [h.tail, hbits] at htail
    have hbound := h.bound c.side
    have hle := h.bound_le c.side
    have hcapacity := s.ring.capacity.isLt
    exact ofNat_eq_of_lt htail.symm hwithin.1 (by omega)

theorem inv_next (h : Inv policy s) (hfresh : Fresh s (.next t : Action τ α))
    (hstep : s.next t (s.threads t) = some s') : Inv policy s' := by
  have hthread := h.threads t
  cases hpc : s.threads t with
  | idle =>
      rw [hpc] at hstep
      cases hstep
  | loadHead c =>
      rw [hpc] at hstep hthread
      cases hstep
      apply h.setPc
      · exact ⟨hthread, h.head c.side, le_refl _, fun _ => rfl⟩
      · intro sd
        rw [hpc]
        rfl
  | loadTail c oldHead stamp =>
      rw [hpc] at hstep hthread
      obtain ⟨hpermitted, hlooking⟩ := hthread
      simp only [State.next] at hstep
      split_ifs at hstep with hn
      · cases hstep
        apply h.ret
        intro sd
        rw [hpc]
        rfl
      · cases hstep
        simp only [Fresh, State.lag, hpc] at hfresh
        have hentries := h.toNat_entries hlooking.le hfresh
        have hlimit := c.limit_le (entries s.ring oldHead c.side)
        rw [← hlooking.bits] at hentries
        have hle := hlooking.le
        have hbound := h.bound c.side
        have hroom : stamp + (c.limit (entries s.ring oldHead c.side)).toNat ≤ s.bound c.side := by
          omega
        apply h.setPc
        · exact ⟨hpermitted, hlooking, hn, hroom⟩
        · intro sd
          rw [hpc]
          rfl
  | moveHead c l =>
      rw [hpc] at hstep hthread
      simp only [State.next] at hstep
      split_ifs at hstep with hmove
      · cases hstep
        exact h.take hpc (h.stamp_eq_taken hpc hfresh hmove)
      · cases hstep
        apply h.setPc
        · exact hthread.1
        · intro sd
          rw [hpc]
          rfl
  | copy c l todo =>
      rw [hpc] at hstep hthread
      cases todo with
      | nil =>
          simp only [State.next] at hstep
          split_ifs at hstep with hturn
          · cases hstep
            obtain ⟨hpermitted, hbits, k, hk, htodo, hcopied⟩ := hthread
            have hdone : k = l.n.toNat := by
              have hlength := congrArg List.length htodo
              simp only [List.length_nil, List.length_map, List.length_range'] at hlength
              omega
            subst hdone
            apply h.setPc
            · exact ⟨hpermitted, hbits, h.stamp_eq_passed hpc hturn, hcopied⟩
            · intro sd
              rw [hpc]
              rfl
          · cases hstep
            exact h
      | cons slot todo =>
          cases hstep
          cases hside : c.side with
          | prod => exact h.copyProd hpc hside
          | cons => exact h.copyCons hpc hside
  | storeTail c l =>
      rw [hpc] at hstep
      cases hstep
      exact h.pass hpc

theorem inv_step {a : Action τ α} (h : Inv policy s) (ha : a.Permitted policy) (hfresh : Fresh s a)
    (hstep : step s a = some s') : Inv policy s' := by
  cases a with
  | next t => exact inv_next h hfresh hstep
  | call t c =>
      simp only [step] at hstep
      split at hstep
      · rename_i hpc
        cases hstep
        have hok : ThreadOk policy s t (.loadHead c) := ha
        apply h.setPc hok
        intro sd
        rw [hpc]
        rfl
      · cases hstep

end

/-! ## Whole runs -/

def State.init (r : RteRing) (slots : ℕ → α) : State τ α :=
  { ring := r
    slots
    threads := fun _ => .idle
    taken := fun _ => 0
    passed := fun _ => []
    returns := [] }

theorem rteRingInit_zero {name : List UInt8} {count flags : BitVec 32} {ret : ℤ} {r : RteRing}
    (h : rteRingInit name count flags = (ret, r)) (sd : Side) :
    (r.ht sd).head = 0 ∧ (r.ht sd).tail = 0 := by
  have hr : (rteRingInit name count flags).2 = r := by
    rw [h]
  subst hr
  unfold rteRingInit
  split_ifs <;> cases sd <;> exact ⟨rfl, rfl⟩

theorem inv_init (policy : Policy τ) {name : List UInt8} {count flags : BitVec 32} {ret : ℤ}
    {r : RteRing} (hinit : rteRingInit name count flags = (ret, r)) (hr : r.WellFormed)
    (slots : ℕ → α) : Inv policy (State.init r slots) := by
  refine ⟨hr, ?_, ?_, ?_, ?_, List.prefix_refl _, ?_, ?_⟩
  · intro sd
    exact (rteRingInit_zero hinit sd).1
  · intro sd
    exact (rteRingInit_zero hinit sd).2
  · intro sd
    exact tiles_of_none fun _ => rfl
  · intro sd
    exact Nat.zero_le _
  · intro i _ hi
    exact absurd hi (by simp [State.init])
  · intro t
    trivial

variable [DecidableEq τ]

theorem inv_run {policy : Policy τ} {acts : List (Action τ α)} {s₀ s : State τ α}
    (hacts : ∀ a ∈ acts, a.Permitted policy) (h : Inv policy s₀)
    (hrun : exec (guarded Fresh step) acts s₀ = some s) : Inv policy s := by
  apply exec_invariant_of_mem _ h hrun
  intro s a t ha hs hstep
  obtain ⟨hfresh, hstep⟩ := guarded_eq_some.mp hstep
  exact inv_step hs (hacts a ha) hfresh hstep

theorem capacity_next {s s' : State τ α} {t : τ} {pc : Pc α} (h : s.next t pc = some s') :
    s'.ring.capacity = s.ring.capacity := by
  cases pc with
  | idle => cases h
  | loadHead c =>
      cases h
      rfl
  | loadTail c oldHead stamp =>
      simp only [State.next] at h
      split_ifs at h <;> cases h <;> rfl
  | moveHead c l =>
      simp only [State.next] at h
      split_ifs at h <;> cases h
      · exact RteRing.setHead_capacity _ _ _
      · rfl
  | copy c l todo =>
      cases todo with
      | nil =>
          simp only [State.next] at h
          split_ifs at h <;> cases h <;> rfl
      | cons slot todo =>
          cases h
          cases hside : c.side with
          | prod => rw [State.copy_prod hside]; rfl
          | cons => rw [State.copy_cons hside]; rfl
  | storeTail c l =>
      cases h
      exact RteRing.setTail_capacity _ _ _

theorem capacity_run {acts : List (Action τ α)} {s₀ s : State τ α}
    (hrun : exec (guarded Fresh step) acts s₀ = some s) :
    s.ring.capacity = s₀.ring.capacity := by
  have hkept : ∀ (s : State τ α) a t, s.ring.capacity = s₀.ring.capacity →
      guarded Fresh step s a = some t → t.ring.capacity = s₀.ring.capacity := by
    intro s a t hs hstep
    obtain ⟨-, hstep⟩ := guarded_eq_some.mp hstep
    cases a with
    | next u => exact (capacity_next hstep).trans hs
    | call u c =>
        simp only [step] at hstep
        split at hstep
        · cases hstep
          exact hs
        · cases hstep
  exact exec_invariant hkept rfl hrun

def rteRingCount (r : RteRing) : BitVec 32 :=
  let count := (r.prod.tail - r.cons.tail) &&& r.mask
  if r.capacity < count then r.capacity else count

def rteRingFreeCount (r : RteRing) : BitVec 32 :=
  r.capacity - rteRingCount r

def rteRingFull (r : RteRing) : Bool :=
  rteRingFreeCount r == 0

def rteRingEmpty (r : RteRing) : Bool :=
  rteRingCount r == 0

omit [DecidableEq τ] in
theorem Inv.toNat_rteRingCount {policy : Policy τ} {s : State τ α} (h : Inv policy s) :
    (rteRingCount s.ring).toNat = (s.passed .prod).length - (s.passed .cons).length := by
  have hle := h.fifo.length_le
  have hbound := h.bound_le .cons
  have hcapacity := BitVec.lt_def.mp h.wellFormed.capacity
  have hprod := h.tail .prod
  have hcons := h.tail .cons
  simp only [RteRing.ht] at hprod hcons
  simp only [State.bound] at hbound
  have hsub : s.ring.prod.tail - s.ring.cons.tail =
      BitVec.ofNat 32 ((s.passed .prod).length - (s.passed .cons).length) := by
    apply BitVec.eq_of_toNat_eq
    rw [hprod, hcons, BitVec.toNat_sub, BitVec.toNat_ofNat, BitVec.toNat_ofNat,
      BitVec.toNat_ofNat]
    omega
  have hmasked : ((s.ring.prod.tail - s.ring.cons.tail) &&& s.ring.mask).toNat =
      (s.passed .prod).length - (s.passed .cons).length := by
    rw [hsub, h.wellFormed.toNat_and_mask]
    exact Nat.mod_eq_of_lt (by omega)
  simp only [rteRingCount]
  rw [if_neg]
  · exact hmasked
  · rw [BitVec.not_lt, BitVec.le_def, hmasked]
    omega

/-- The ring is a queue whatever the interleaving: what has been dequeued is the first part
of what has been enqueued, in the same order, never more than the capacity behind it, and
`rte_ring_count` is the difference.  On each side either no call is a single producer or
single consumer one or all calls are made by one thread, and no call holds on to a head it
has read while the head goes almost all the way around `2 ^ 32`. -/
theorem ring_fifo (policy : Policy τ) (name : List UInt8) (count flags : BitVec 32) (r : RteRing)
    (hinit : rteRingInit name count flags = (0, r)) (hr : r.WellFormed) (slots : ℕ → α)
    (acts : List (Action τ α)) (hacts : ∀ a ∈ acts, a.Permitted policy) (s : State τ α)
    (hrun : exec (guarded Fresh step) acts (State.init r slots) = some s) :
    s.passed .cons <+: s.passed .prod ∧
      (s.passed .prod).length ≤ (s.passed .cons).length + r.capacity.toNat ∧
      (rteRingCount s.ring).toNat = (s.passed .prod).length - (s.passed .cons).length ∧
      (rteRingEmpty s.ring = true ↔ s.passed .cons = s.passed .prod) ∧
      (rteRingFull s.ring = true ↔
        (s.passed .prod).length = (s.passed .cons).length + r.capacity.toNat) := by
  have h := inv_run hacts (inv_init policy hinit hr slots) hrun
  have hcapacity : s.ring.capacity = r.capacity := capacity_run hrun
  have hcount := h.toNat_rteRingCount
  have hbound := h.bound_le .cons
  have hle := h.fifo.length_le
  simp only [State.bound, hcapacity] at hbound
  refine ⟨h.fifo, hbound, hcount, ?_, ?_⟩
  · rw [rteRingEmpty, beq_iff_eq, ← BitVec.toNat_inj, hcount]
    constructor
    · intro hzero
      apply h.fifo.eq_of_length
      have hzero' : (s.passed .prod).length - (s.passed .cons).length = 0 := hzero
      omega
    · intro heq
      rw [heq, Nat.sub_self]
      rfl
  · have hlt := r.capacity.isLt
    have hzero : (0 : BitVec 32).toNat = 0 := rfl
    rw [rteRingFull, beq_iff_eq, ← BitVec.toNat_inj, rteRingFreeCount, BitVec.toNat_sub, hcount,
      hcapacity, hzero]
    omega

def fourSlots : RteRing := (rteRingInit [] 4 0).2

theorem fourSlots_wellFormed : fourSlots.WellFormed :=
  ⟨⟨2, rfl⟩, rfl, by decide⟩

/-- Two producers look at the same head; the one that comes second finds less room and has
to wait with its tail for the first.  Then a consumer takes the first two objects. -/
def threeThreads : List (Action ℕ ℕ) :=
  [.call 0 ⟨.prod, fun i => 10 + i, 2, .queueVariable, false⟩,
   .call 1 ⟨.prod, fun i => 20 + i, 2, .queueFixed, false⟩,
   .next 0, .next 1, .next 0, .next 1, .next 1, .next 0, .next 0, .next 0, .next 0, .next 0,
   .next 0, .next 1, .next 1, .next 1, .next 1, .next 0, .next 0,
   .call 2 ⟨.cons, fun _ => 0, 2, .queueFixed, false⟩,
   .next 2, .next 2, .next 2, .next 2, .next 2, .next 2, .next 2]

theorem threeThreads_permitted : ∀ a ∈ threeThreads, a.Permitted (fun _ => none) := by
  simp [threeThreads, Action.Permitted, Permitted]

theorem ring_fifo_threeThreads :
    ∃ s, exec (guarded Fresh step) threeThreads (State.init fourSlots fun _ => 0) = some s ∧
      s.passed .prod = [20, 21, 10] ∧ s.passed .cons <+: s.passed .prod := by
  refine ⟨_, rfl, ?_, ?_⟩
  · decide
  · exact (ring_fifo (fun _ => none) [] 4 0 fourSlots rfl fourSlots_wellFormed (fun _ => 0)
      threeThreads threeThreads_permitted _ rfl).1

/-! ## What one access can be -/

def Pc.call : Pc α → Option (Call α)
  | .idle => none
  | .loadHead c => some c
  | .loadTail c _ _ => some c
  | .moveHead c _ => some c
  | .copy c _ _ => some c
  | .storeTail c _ => some c

structure Call.Same (c c' : Call α) : Prop where
  side : c'.side = c.side
  n : c'.n = c.n
  behavior : c'.behavior = c.behavior
  objTable : c.side = .prod → c'.objTable = c.objTable

omit [DecidableEq τ] in
theorem Call.Same.refl (c : Call α) : c.Same c :=
  ⟨rfl, rfl, rfl, fun _ => rfl⟩

omit [DecidableEq τ] in
theorem Call.Same.trans {c₁ c₂ c₃ : Call α} (h₁ : c₁.Same c₂) (h₂ : c₂.Same c₃) : c₁.Same c₃ := by
  refine ⟨h₂.side.trans h₁.side, h₂.n.trans h₁.n, h₂.behavior.trans h₁.behavior, ?_⟩
  intro hside
  rw [h₂.objTable (h₁.side.trans hside), h₁.objTable hside]

theorem next_cases {s s' : State τ α} {t : τ} (h : s.next t (s.threads t) = some s') :
    (∃ c c', (s.threads t).call = some c ∧ (s'.threads t).call = some c' ∧ c.Same c' ∧
        s'.passed = s.passed) ∨
      (∃ c oldHead stamp, s.threads t = .loadTail c oldHead stamp ∧
        c.limit (entries s.ring oldHead c.side) = 0 ∧ s'.threads t = .idle ∧
        s'.passed = s.passed) ∨
      ∃ c l, s.threads t = .storeTail c l ∧ s' = s.pass t c l := by
  cases hpc : s.threads t with
  | idle =>
      rw [hpc] at h
      cases h
  | loadHead c =>
      rw [hpc] at h
      cases h
      exact Or.inl ⟨c, c, rfl, by rw [State.setPc_self]; rfl, Call.Same.refl c, rfl⟩
  | loadTail c oldHead stamp =>
      rw [hpc] at h
      simp only [State.next] at h
      split_ifs at h with hn
      · cases h
        exact Or.inr (Or.inl ⟨c, oldHead, stamp, rfl, hn, State.setPc_self _ _ _, rfl⟩)
      · cases h
        exact Or.inl ⟨c, c, rfl, by rw [State.setPc_self]; rfl, Call.Same.refl c, rfl⟩
  | moveHead c l =>
      rw [hpc] at h
      simp only [State.next] at h
      split_ifs at h
      · cases h
        refine Or.inl ⟨c, c, rfl, ?_, Call.Same.refl c, rfl⟩
        rw [show (s.take t c l).threads t = .copy c l _ from State.setPc_self _ _ _]
        rfl
      · cases h
        exact Or.inl ⟨c, c, rfl, by rw [State.setPc_self]; rfl, Call.Same.refl c, rfl⟩
  | copy c l todo =>
      rw [hpc] at h
      cases todo with
      | nil =>
          simp only [State.next] at h
          split_ifs at h
          · cases h
            exact Or.inl ⟨c, c, rfl, by rw [State.setPc_self]; rfl, Call.Same.refl c, rfl⟩
          · cases h
            exact Or.inl ⟨c, c, rfl, by rw [hpc]; rfl, Call.Same.refl c, rfl⟩
      | cons slot todo =>
          cases h
          left
          cases hside : c.side with
          | prod =>
              rw [State.copy_prod hside]
              refine ⟨c, c, rfl, ?_, Call.Same.refl c, rfl⟩
              rw [show State.threads _ t = .copy c l todo from State.setPc_self _ _ _]
              rfl
          | cons =>
              rw [State.copy_cons hside]
              refine ⟨c, { c with objTable := Function.update c.objTable slot.2 (s.slots slot.1) },
                rfl, ?_, ⟨rfl, rfl, rfl, ?_⟩, rfl⟩
              · rw [State.setPc_self]
                rfl
              · intro hprod
                rw [hside] at hprod
                cases hprod
  | storeTail c l =>
      rw [hpc] at h
      cases h
      exact Or.inr (Or.inr ⟨c, l, rfl, rfl⟩)

theorem next_others {s s' : State τ α} {t u : τ} {pc : Pc α} (h : s.next t pc = some s')
    (hut : u ≠ t) : s'.threads u = s.threads u := by
  cases pc with
  | idle => cases h
  | loadHead c =>
      cases h
      exact State.setPc_of_ne hut
  | loadTail c oldHead stamp =>
      simp only [State.next] at h
      split_ifs at h <;> cases h <;> exact State.setPc_of_ne hut
  | moveHead c l =>
      simp only [State.next] at h
      split_ifs at h <;> cases h <;> exact State.setPc_of_ne hut
  | copy c l todo =>
      cases todo with
      | nil =>
          simp only [State.next] at h
          split_ifs at h <;> cases h
          · exact State.setPc_of_ne hut
          · rfl
      | cons slot todo =>
          cases h
          obtain ⟨⟨c', -, hthreads⟩, -⟩ := s.copy_frame t c l slot.1 slot.2 todo
          rw [hthreads]
          exact State.setPc_of_ne hut
  | storeTail c l =>
      cases h
      exact State.setPc_of_ne hut

/-! ## What the calls return -/

/-- What a call says fits what it found: it moves no more than it was asked to, all or
nothing if that is what it was asked to do, falls short only where there was not enough, and
does not report less left than there was. -/
structure Return.Truthful (ret : Return) : Prop where
  le_asked : ret.n ≤ ret.asked
  bulk : ret.behavior = .queueFixed → ret.n = 0 ∨ ret.n = ret.asked
  short : ret.n < ret.asked → ret.room < ret.asked.toNat
  burst : ret.behavior = .queueVariable → min ret.asked.toNat ret.room ≤ ret.n.toNat
  left : ret.room ≤ ret.n.toNat + ret.left.toNat

def reported (returns : List Return) (sd : Side) : ℕ :=
  ((returns.filter fun ret => ret.side = sd).map fun ret => ret.n.toNat).sum

/-- What a call goes for is what it decided on when it read the tail. -/
def Pc.Decided : Pc α → Prop
  | .moveHead c l => l.n = c.limit l.entries ∧ l.room ≤ l.entries.toNat
  | .copy c l _ => l.n = c.limit l.entries ∧ l.room ≤ l.entries.toNat
  | .storeTail c l => l.n = c.limit l.entries ∧ l.room ≤ l.entries.toNat
  | _ => True

structure Answered (s : State τ α) : Prop where
  threads : ∀ t, (s.threads t).Decided
  returns : ∀ ret ∈ s.returns, ret.Truthful
  total : ∀ sd, reported s.returns sd = (s.passed sd).length

omit [DecidableEq τ] in
theorem Call.limit_cases (c : Call α) (entries : BitVec 32) :
    (c.n ≤ entries ∧ c.limit entries = c.n) ∨
      (entries < c.n ∧ c.behavior = .queueFixed ∧ c.limit entries = 0) ∨
      (entries < c.n ∧ c.behavior = .queueVariable ∧ c.limit entries = entries) := by
  by_cases hlt : entries < c.n
  · cases hbehavior : c.behavior with
    | queueFixed => simp [Call.limit, hlt, hbehavior]
    | queueVariable => simp [Call.limit, hlt, hbehavior]
  · simp [Call.limit, hlt, BitVec.not_lt.mp hlt]

omit [DecidableEq τ] in
theorem Call.limit_le_asked (c : Call α) (entries : BitVec 32) :
    (c.limit entries).toNat ≤ c.n.toNat := by
  rcases c.limit_cases entries with ⟨-, hn⟩ | ⟨hlt, -, hn⟩ | ⟨hlt, -, hn⟩
  · rw [hn]
  · rw [hn]
    exact Nat.zero_le _
  · rw [hn]
    exact Nat.le_of_lt (BitVec.lt_def.mp hlt)

omit [DecidableEq τ] in
theorem truthful_limit (c : Call α) {entries : BitVec 32} {room : ℕ} (h : room ≤ entries.toNat) :
    (⟨c.side, c.behavior, c.n, c.limit entries, entries - c.limit entries, room⟩ :
      Return).Truthful := by
  have hleft : room ≤ (c.limit entries).toNat + (entries - c.limit entries).toNat := by
    have hle := c.limit_le entries
    rw [BitVec.toNat_sub_of_le (BitVec.le_def.mpr hle)]
    omega
  rcases c.limit_cases entries with ⟨-, hn⟩ | ⟨hlt, hbehavior, hn⟩ | ⟨hlt, hbehavior, hn⟩
  · refine ⟨BitVec.le_of_eq hn, fun _ => Or.inr hn, fun hshort => ?_, fun _ => ?_, hleft⟩
    · exact absurd (hn ▸ hshort) (BitVec.lt_irrefl _)
    · rw [show c.limit entries = c.n from hn]
      exact min_le_left _ _
  · have hlt' := BitVec.lt_def.mp hlt
    refine ⟨?_, fun _ => Or.inl hn, fun _ => h.trans_lt hlt', fun hburst => ?_, hleft⟩
    · rw [show c.limit entries = 0 from hn]
      exact BitVec.le_def.mpr (Nat.zero_le _)
    · rw [show c.behavior = .queueFixed from hbehavior] at hburst
      cases hburst
  · have hlt' := BitVec.lt_def.mp hlt
    refine ⟨?_, fun hbulk => ?_, fun _ => h.trans_lt hlt', fun _ => ?_, hleft⟩
    · rw [show c.limit entries = entries from hn]
      exact BitVec.le_of_lt hlt
    · rw [show c.behavior = .queueVariable from hbehavior] at hbulk
      cases hbulk
    · rw [show c.limit entries = entries from hn]
      exact (min_le_right _ _).trans h

omit [DecidableEq τ] in
theorem reported_append (returns : List Return) (ret : Return) (sd : Side) :
    reported (returns ++ [ret]) sd =
      reported returns sd + if ret.side = sd then ret.n.toNat else 0 := by
  by_cases hside : ret.side = sd <;> simp [reported, List.filter_append, hside]

omit [DecidableEq τ] in
theorem answered_init (r : RteRing) (slots : ℕ → α) :
    Answered (State.init r slots : State τ α) := by
  refine ⟨?_, ?_, ?_⟩
  · intro t
    trivial
  · intro ret hret
    cases hret
  · intro sd
    rfl

theorem Answered.setPc {s : State τ α} {t : τ} {pc : Pc α} (h : Answered s)
    (hpc : pc.Decided) : Answered (s.setPc t pc) := by
  refine ⟨?_, h.returns, h.total⟩
  intro u
  by_cases hut : u = t
  · subst hut
    rw [show (s.setPc u pc).threads u = pc from Function.update_self _ _ _]
    exact hpc
  · rw [show (s.setPc t pc).threads u = s.threads u from Function.update_of_ne hut _ _]
    exact h.threads u

theorem Answered.answer {s s' : State τ α} {t : τ} {c : Call α} {entries : BitVec 32} {room : ℕ}
    (h : Answered s) (hroom : room ≤ entries.toNat)
    (hthreads : s'.threads = (s.setPc t .idle).threads)
    (hreturns : s'.returns = s.returns ++ [⟨c.side, c.behavior, c.n, c.limit entries,
      entries - c.limit entries, room⟩])
    (hpassed : ∀ sd, (s'.passed sd).length =
      (s.passed sd).length + if c.side = sd then (c.limit entries).toNat else 0) :
    Answered s' := by
  have hidle : Answered (s.setPc t .idle) := h.setPc trivial
  refine ⟨?_, ?_, ?_⟩
  · rw [hthreads]
    exact hidle.threads
  · intro ret hret
    rw [hreturns] at hret
    rcases List.mem_append.mp hret with hold | hnew
    · exact h.returns ret hold
    · rw [List.mem_singleton.mp hnew]
      exact truthful_limit c hroom
  · intro sd
    rw [hreturns, reported_append, h.total, hpassed]

theorem answered_next {policy : Policy τ} {s s' : State τ α} {t : τ} (h : Inv policy s)
    (ha : Answered s) (hfresh : Fresh s (.next t : Action τ α))
    (hstep : s.next t (s.threads t) = some s') : Answered s' := by
  have hdecided := ha.threads t
  cases hpc : s.threads t with
  | idle =>
      rw [hpc] at hstep
      cases hstep
  | loadHead c =>
      rw [hpc] at hstep
      cases hstep
      exact ha.setPc trivial
  | loadTail c oldHead stamp =>
      have hthread := h.threads t
      rw [hpc] at hstep hthread
      obtain ⟨-, hlooking⟩ := hthread
      have hfresh' : s.taken c.side - stamp + s.ring.capacity.toNat < 2 ^ 32 := by
        simpa only [Fresh, State.lag, hpc] using hfresh
      have hentries := h.toNat_entries hlooking.le hfresh'
      rw [← hlooking.bits] at hentries
      have hroom : s.room c.side ≤ (entries s.ring oldHead c.side).toNat := by
        have hle := hlooking.le
        unfold State.room
        omega
      simp only [State.next] at hstep
      split_ifs at hstep with hn
      · cases hstep
        apply ha.answer (t := t) (c := c) hroom
        · rfl
        · rw [hn]
          rfl
        · intro sd
          rw [hn]
          simp [State.ret, State.setPc]
      · cases hstep
        exact ha.setPc ⟨rfl, hroom⟩
  | moveHead c l =>
      rw [hpc] at hstep hdecided
      simp only [State.next] at hstep
      split_ifs at hstep with hmove
      · cases hstep
        have hcopy : Answered (s.setPc t (.copy c l (copies s.ring l.oldHead l.n))) :=
          ha.setPc hdecided
        exact ⟨hcopy.threads, hcopy.returns, hcopy.total⟩
      · cases hstep
        exact ha.setPc trivial
  | copy c l todo =>
      rw [hpc] at hstep hdecided
      cases todo with
      | nil =>
          simp only [State.next] at hstep
          split_ifs at hstep with hturn
          · cases hstep
            exact ha.setPc hdecided
          · cases hstep
            exact ha
      | cons slot todo =>
          cases hstep
          cases hside : c.side with
          | prod =>
              rw [State.copy_prod hside]
              have hcopy : Answered (s.setPc t (.copy c l todo)) := ha.setPc hdecided
              exact ⟨hcopy.threads, hcopy.returns, hcopy.total⟩
          | cons =>
              rw [State.copy_cons hside]
              exact ha.setPc hdecided
  | storeTail c l =>
      rw [hpc] at hstep hdecided
      obtain ⟨hn, hroom⟩ := hdecided
      cases hstep
      apply ha.answer (t := t) (c := c) hroom
      · rfl
      · rw [← hn]
        rfl
      · intro sd
        rw [State.pass_passed, ← hn]
        by_cases hside : sd = c.side
        · simp [hside]
        · rw [if_neg hside, if_neg (fun heq => hside heq.symm), Nat.add_zero]

/-- Every call is answered truthfully, and the numbers the calls on a side return add up to
what the tail of that side has passed and to the tail itself. -/
theorem ring_returns (policy : Policy τ) (name : List UInt8) (count flags : BitVec 32)
    (r : RteRing) (hinit : rteRingInit name count flags = (0, r)) (hr : r.WellFormed)
    (slots : ℕ → α) (acts : List (Action τ α)) (hacts : ∀ a ∈ acts, a.Permitted policy)
    (s : State τ α) (hrun : exec (guarded Fresh step) acts (State.init r slots) = some s) :
    (∀ ret ∈ s.returns, ret.Truthful) ∧
      ∀ sd, reported s.returns sd = (s.passed sd).length ∧
        (s.ring.ht sd).tail = BitVec.ofNat 32 (reported s.returns sd) := by
  have hstart : Inv policy (State.init r slots) ∧ Answered (State.init r slots : State τ α) :=
    ⟨inv_init policy hinit hr slots, answered_init r slots⟩
  have hkept : ∀ s a t, a ∈ acts → Inv policy s ∧ Answered s →
      guarded Fresh step s a = some t → Inv policy t ∧ Answered t := by
    intro s a t ha hs hstep
    obtain ⟨hfresh, hstep⟩ := guarded_eq_some.mp hstep
    refine ⟨inv_step hs.1 (hacts a ha) hfresh hstep, ?_⟩
    cases a with
    | next u => exact answered_next hs.1 hs.2 hfresh hstep
    | call u c =>
        simp only [step] at hstep
        split at hstep
        · cases hstep
          exact hs.2.setPc trivial
        · cases hstep
  have hend := exec_invariant_of_mem hkept hstart hrun
  refine ⟨hend.2.returns, fun sd => ⟨hend.2.total sd, ?_⟩⟩
  rw [hend.2.total sd, hend.1.tail sd]

theorem ring_returns_threeThreads :
    ∃ s, exec (guarded Fresh step) threeThreads (State.init fourSlots fun _ => 0) = some s ∧
      s.returns.length = 3 ∧ (∀ ret ∈ s.returns, ret.Truthful) ∧
      ∀ sd, (s.ring.ht sd).tail = BitVec.ofNat 32 (reported s.returns sd) := by
  have h := ring_returns (fun _ => none) [] 4 0 fourSlots rfl fourSlots_wellFormed (fun _ => 0)
    threeThreads threeThreads_permitted _ rfl
  refine ⟨_, rfl, ?_, h.1, fun sd => (h.2 sd).2⟩
  decide

end SoftwareSwitches.Ring
