import SoftwareSwitches.Ring.Machine
import SoftwareSwitches.Lib.Tickets

/-!
# What holds while threads use the ring

The heads and tails only ever grow; the code keeps them modulo `2 ^ 32`.  On each side the
places between the tail and the head are held by the calls that have moved the head and not
yet the tail.
-/

namespace SoftwareSwitches.Ring

open SoftwareSwitches.Lib.Tickets

variable {τ α : Type}

/-! ## Who may call -/

/-- For each side the one thread that uses it, or `none` where all threads may and no call
is a single producer or single consumer one. -/
abbrev Policy (τ : Type) := Side → Option τ

def Permitted (policy : Policy τ) (t : τ) (c : Call α) : Prop :=
  match policy c.side with
  | none => c.single = false
  | some u => t = u

def Action.Permitted (policy : Policy τ) : Action τ α → Prop
  | .call t c => Ring.Permitted policy t c
  | .next _ => True

/-! ## The invariant -/

def Pc.claim : Pc α → Side → Option (ℕ × ℕ)
  | .copy c l _, sd => if c.side = sd then some (l.stamp, l.n.toNat) else none
  | .storeTail c l, sd => if c.side = sd then some (l.stamp, l.n.toNat) else none
  | _, _ => none

structure Looking (policy : Policy τ) (s : State τ α) (sd : Side) (oldHead : BitVec 32)
    (stamp : ℕ) : Prop where
  bits : oldHead = BitVec.ofNat 32 stamp
  le : stamp ≤ s.taken sd
  alone : (policy sd).isSome → stamp = s.taken sd

/-- The first `k` objects of a call are in their slots, or read from them. -/
def Copied (s : State τ α) (c : Call α) (l : Locals) (k : ℕ) : Prop :=
  ∀ i < k, match c.side with
    | .prod => s.slots ((l.stamp + i) % s.ring.size.toNat) = c.objTable i
    | .cons => (s.passed .prod)[l.stamp + i]? = some (c.objTable i)

def ThreadOk (policy : Policy τ) (s : State τ α) (t : τ) : Pc α → Prop
  | .idle => True
  | .loadHead c => Permitted policy t c
  | .loadTail c oldHead stamp => Permitted policy t c ∧ Looking policy s c.side oldHead stamp
  | .moveHead c l =>
    Permitted policy t c ∧ Looking policy s c.side l.oldHead l.stamp ∧ l.n ≠ 0 ∧
      l.stamp + l.n.toNat ≤ s.bound c.side
  | .copy c l todo =>
    Permitted policy t c ∧ l.oldHead = BitVec.ofNat 32 l.stamp ∧ ∃ k ≤ l.n.toNat,
      todo = (List.range' k (l.n.toNat - k)).map
        (fun i => ((l.stamp + i) % s.ring.size.toNat, i)) ∧
      Copied s c l k
  | .storeTail c l =>
    Permitted policy t c ∧ l.oldHead = BitVec.ofNat 32 l.stamp ∧
      l.stamp = (s.passed c.side).length ∧ Copied s c l l.n.toNat

structure Inv (policy : Policy τ) (s : State τ α) : Prop where
  wellFormed : s.ring.WellFormed
  head : ∀ sd, (s.ring.ht sd).head = BitVec.ofNat 32 (s.taken sd)
  tail : ∀ sd, (s.ring.ht sd).tail = BitVec.ofNat 32 (s.passed sd).length
  tiles : ∀ sd, Tiles (s.passed sd).length (s.taken sd) fun t => (s.threads t).claim sd
  bound : ∀ sd, s.taken sd ≤ s.bound sd
  fifo : s.passed .cons <+: s.passed .prod
  slots : ∀ i, (s.passed .cons).length ≤ i → i < (s.passed .prod).length →
    (s.passed .prod)[i]? = some (s.slots (i % s.ring.size.toNat))
  threads : ∀ t, ThreadOk policy s t (s.threads t)

/-! ## Freshness -/

/-- How far the head has moved since a thread read it, while the thread relies on it. -/
def State.lag (s : State τ α) (t : τ) : ℕ :=
  match s.threads t with
  | .loadTail c _ stamp => s.taken c.side - stamp
  | .moveHead c l => s.taken c.side - l.stamp
  | _ => 0

def Fresh (s : State τ α) : Action τ α → Prop
  | .call _ _ => True
  | .next t => s.lag t + s.ring.capacity.toNat < 2 ^ 32

instance (s : State τ α) (a : Action τ α) : Decidable (Fresh s a) :=
  match a with
  | .call _ _ => isTrue trivial
  | .next _ => inferInstanceAs (Decidable (_ < _))

/-! ## Threads that do not move -/

theorem Permitted.alone {policy : Policy τ} {t : τ} {c : Call α} (h : Permitted policy t c)
    (hsome : (policy c.side).isSome) : policy c.side = some t := by
  unfold Permitted at h
  obtain ⟨u, hu⟩ := Option.isSome_iff_exists.mp hsome
  rw [hu] at h ⊢
  rw [h]

theorem Looking.frame {policy : Policy τ} {s s' : State τ α} {sd : Side} {oldHead : BitVec 32}
    {stamp : ℕ} (h : Looking policy s sd oldHead stamp) (htaken : s.taken sd ≤ s'.taken sd)
    (halone : (policy sd).isSome → s'.taken sd = s.taken sd) :
    Looking policy s' sd oldHead stamp := by
  refine ⟨h.bits, h.le.trans htaken, ?_⟩
  intro hsome
  rw [halone hsome]
  exact h.alone hsome

theorem Copied.frame {s s' : State τ α} {c : Call α} {l : Locals} {k : ℕ} (h : Copied s c l k)
    (hsize : s'.ring.size = s.ring.size) (hpassed : s.passed .prod <+: s'.passed .prod)
    (hslots : c.side = .prod → ∀ i < k,
      s'.slots ((l.stamp + i) % s.ring.size.toNat) = s.slots ((l.stamp + i) % s.ring.size.toNat)) :
    Copied s' c l k := by
  intro i hi
  have hold := h i hi
  cases hside : c.side with
  | prod =>
      simp only [hside] at hold ⊢
      rw [hsize, hslots hside i hi]
      exact hold
  | cons =>
      simp only [hside] at hold ⊢
      obtain ⟨more, hmore⟩ := hpassed
      have hlt := (List.getElem?_eq_some_iff.mp hold).1
      rw [← hmore, List.getElem?_append_left hlt]
      exact hold

theorem ThreadOk.frame {policy : Policy τ} {s : State τ α} {u : τ} {pc : Pc α}
    (h : ThreadOk policy s u pc) (s' : State τ α) (hsize : s'.ring.size = s.ring.size)
    (htaken : ∀ sd, s.taken sd ≤ s'.taken sd)
    (halone : ∀ sd, policy sd = some u → s'.taken sd = s.taken sd)
    (hbound : ∀ sd, s.bound sd ≤ s'.bound sd)
    (hpassed : s.passed .prod <+: s'.passed .prod)
    (hslots : ∀ start n, pc.claim .prod = some (start, n) → ∀ i < n,
      s'.slots ((start + i) % s.ring.size.toNat) = s.slots ((start + i) % s.ring.size.toNat))
    (htail : ∀ c l, pc = .storeTail c l →
      (s'.passed c.side).length = (s.passed c.side).length) : ThreadOk policy s' u pc := by
  cases pc with
  | idle => trivial
  | loadHead c => exact h
  | loadTail c oldHead stamp =>
      obtain ⟨hpermitted, hlooking⟩ := h
      refine ⟨hpermitted, hlooking.frame (htaken _) ?_⟩
      intro hsome
      exact halone _ (hpermitted.alone hsome)
  | moveHead c l =>
      obtain ⟨hpermitted, hlooking, hn, hroom⟩ := h
      refine ⟨hpermitted, hlooking.frame (htaken _) ?_, hn, hroom.trans (hbound _)⟩
      intro hsome
      exact halone _ (hpermitted.alone hsome)
  | copy c l todo =>
      obtain ⟨hpermitted, hbits, k, hk, htodo, hcopied⟩ := h
      refine ⟨hpermitted, hbits, k, hk, ?_, hcopied.frame hsize hpassed ?_⟩
      · rw [hsize]
        exact htodo
      · intro hside i hi
        exact hslots l.stamp l.n.toNat (if_pos hside) i (by omega)
  | storeTail c l =>
      obtain ⟨hpermitted, hbits, hstamp, hcopied⟩ := h
      refine ⟨hpermitted, hbits, ?_, hcopied.frame hsize hpassed ?_⟩
      · rw [htail c l rfl]
        exact hstamp
      · intro hside i hi
        exact hslots l.stamp l.n.toNat (if_pos hside) i hi

/-! ## The bounds -/

section

variable {policy : Policy τ} {s : State τ α}

theorem Inv.bound_le (h : Inv policy s) (sd : Side) :
    s.bound sd ≤ (s.passed sd).length + s.ring.capacity.toNat := by
  cases sd with
  | prod =>
      have hle := h.fifo.length_le
      simp only [State.bound]
      omega
  | cons =>
      have hle := (h.tiles .prod).tail_le
      have hroom := h.bound .prod
      simp only [State.bound] at hroom ⊢
      omega

theorem Inv.toNat_entries (h : Inv policy s) {sd : Side} {stamp : ℕ} (hle : stamp ≤ s.taken sd)
    (hfresh : s.taken sd - stamp + s.ring.capacity.toNat < 2 ^ 32) :
    (entries s.ring (BitVec.ofNat 32 stamp) sd).toNat = s.bound sd - stamp := by
  have hbound := h.bound sd
  have hbound' := h.bound_le sd
  have htail := (h.tiles sd).tail_le
  cases sd with
  | prod =>
      have hcons := h.tail .cons
      simp only [RteRing.ht] at hcons
      simp only [State.bound] at hbound hbound' ⊢
      rw [entries, hcons, BitVec.toNat_sub, BitVec.toNat_add, BitVec.toNat_ofNat,
        BitVec.toNat_ofNat]
      omega
  | cons =>
      have hprod := h.tail .prod
      simp only [RteRing.ht] at hprod
      simp only [State.bound] at hbound hbound' ⊢
      rw [entries, hprod, BitVec.toNat_sub, BitVec.toNat_ofNat, BitVec.toNat_ofNat]
      omega

theorem Call.limit_le (c : Call α) (entries : BitVec 32) :
    (c.limit entries).toNat ≤ entries.toNat := by
  unfold Call.limit
  split_ifs with hlt
  · cases c.behavior <;> simp
  · exact BitVec.le_def.mp (BitVec.not_lt.mp hlt)

end

/-! ## What the accesses do -/

variable [DecidableEq τ] {policy : Policy τ} {s : State τ α} {t : τ} {c : Call α} {l : Locals}

/-- A step that moves no head and no tail and writes to no slot in use by others. -/
theorem Inv.ofLocal {pc : Pc α} (h : Inv policy s) (s' : State τ α)
    (hthreads : s'.threads = Function.update s.threads t pc) (hring : s'.ring = s.ring)
    (htaken : s'.taken = s.taken) (hpassed : s'.passed = s.passed)
    (hslots : ∀ j, (s.passed .cons).length ≤ j → j < (s.passed .prod).length →
      s'.slots (j % s.ring.size.toNat) = s.slots (j % s.ring.size.toNat))
    (hothers : ∀ u ≠ t, ∀ start n, (s.threads u).claim .prod = some (start, n) → ∀ i < n,
      s'.slots ((start + i) % s.ring.size.toNat) = s.slots ((start + i) % s.ring.size.toNat))
    (hok : ThreadOk policy s' t pc) (hclaim : ∀ sd, pc.claim sd = (s.threads t).claim sd) :
    Inv policy s' := by
  have hbound : ∀ sd, s'.bound sd = s.bound sd := by
    intro sd
    cases sd <;> simp [State.bound, hring, hpassed]
  refine ⟨?_, ?_, ?_, ?_, ?_, ?_, ?_, ?_⟩
  · rw [hring]
    exact h.wellFormed
  · rw [hring, htaken]
    exact h.head
  · rw [hring, hpassed]
    exact h.tail
  · intro sd
    rw [hpassed, htaken]
    apply (h.tiles sd).congr
    intro u
    rw [hthreads]
    by_cases hut : u = t
    · subst hut
      rw [Function.update_self, hclaim]
    · rw [Function.update_of_ne hut]
  · intro sd
    rw [htaken, hbound]
    exact h.bound sd
  · rw [hpassed]
    exact h.fifo
  · rw [hpassed, hring]
    intro j hj hj'
    rw [hslots j hj hj']
    exact h.slots j hj hj'
  · intro u
    rw [hthreads]
    by_cases hut : u = t
    · subst hut
      rw [Function.update_self]
      exact hok
    · rw [Function.update_of_ne hut]
      apply (h.threads u).frame s' (by rw [hring])
      · intro sd
        rw [htaken]
      · intro sd _
        rw [htaken]
      · intro sd
        rw [hbound]
      · rw [hpassed]
      · exact hothers u hut
      · intro c l _
        rw [hpassed]

theorem ThreadOk.setPc {pc : Pc α} (h : ThreadOk policy s t pc) :
    ThreadOk policy (s.setPc t pc) t pc := by
  apply h.frame (s.setPc t pc) rfl
  · intro sd
    exact le_refl _
  · intro sd _
    rfl
  · intro sd
    cases sd <;> exact le_refl _
  · exact List.prefix_refl _
  · intro start n _ i _
    rfl
  · intro c l _
    rfl

theorem Inv.setPc {pc : Pc α} (h : Inv policy s) (hok : ThreadOk policy s t pc)
    (hclaim : ∀ sd, pc.claim sd = (s.threads t).claim sd) : Inv policy (s.setPc t pc) := by
  apply h.ofLocal (s.setPc t pc) rfl rfl rfl rfl _ _ hok.setPc hclaim
  · intro j _ _
    rfl
  · intro u _ start n _ i _
    rfl

theorem Inv.ret (h : Inv policy s) (entries n : BitVec 32) (room : ℕ)
    (hclaim : ∀ sd, (s.threads t).claim sd = none) :
    Inv policy (s.ret t c entries n room) := by
  have hok : ThreadOk policy (s.ret t c entries n room) t (.idle : Pc α) := trivial
  apply h.ofLocal (s.ret t c entries n room) rfl rfl rfl rfl _ _ hok
  · intro sd
    exact (hclaim sd).symm
  · intro j _ _
    rfl
  · intro u _ start n _ i _
    rfl

theorem newHead_eq (h : l.oldHead = BitVec.ofNat 32 l.stamp) :
    l.newHead = BitVec.ofNat 32 (l.stamp + l.n.toNat) := by
  rw [Locals.newHead, h, BitVec.ofNat_add, BitVec.ofNat_toNat, BitVec.setWidth_eq]

theorem State.take_bound (sd : Side) : (s.take t c l).bound sd = s.bound sd := by
  cases sd <;> simp [State.bound, State.take, State.setPc]

theorem claim_of_ne {pc : Pc α} {u : τ} (hut : u ≠ t) (sd : Side) :
    (Function.update s.threads t pc u).claim sd = (s.threads u).claim sd := by
  rw [Function.update_of_ne hut]

theorem Inv.take (h : Inv policy s) (hpc : s.threads t = .moveHead c l)
    (hstamp : l.stamp = s.taken c.side) : Inv policy (s.take t c l) := by
  have hthread := h.threads t
  rw [hpc] at hthread
  obtain ⟨hpermitted, hlooking, hn, hroom⟩ := hthread
  have hpos : 0 < l.n.toNat := by
    by_contra hzero
    exact hn (BitVec.eq_of_toNat_eq (show l.n.toNat = 0 by omega))
  refine ⟨RteRing.setHead_wellFormed h.wellFormed _ _, ?_, ?_, ?_, ?_, h.fifo, ?_, ?_⟩
  · intro sd
    by_cases hsd : sd = c.side
    · subst hsd
      simp [State.take, newHead_eq hlooking.bits, hstamp]
    · simp [State.take, hsd, h.head]
  · intro sd
    simp [State.take, State.setPc, h.tail]
  · intro sd
    by_cases hsd : sd = c.side
    · subst hsd
      have htaken : (s.take t c l).taken c.side = s.taken c.side + l.n.toNat := by
        simp [State.take]
      rw [htaken]
      apply (h.tiles c.side).reserve hpos (t := t)
      · rw [hpc]
        rfl
      · simp [State.take, State.setPc, Pc.claim, hstamp]
      · intro u hut
        exact claim_of_ne hut c.side
    · have htaken : (s.take t c l).taken sd = s.taken sd := by
        simp [State.take, hsd]
      rw [htaken]
      apply (h.tiles sd).congr
      intro u
      by_cases hut : u = t
      · subst hut
        have hne : c.side ≠ sd := fun heq => hsd heq.symm
        simp [State.take, State.setPc, Pc.claim, hpc, hne]
      · exact claim_of_ne hut sd
  · intro sd
    rw [State.take_bound]
    by_cases hsd : sd = c.side
    · subst hsd
      simp only [State.take, Function.update_self]
      omega
    · simp only [State.take, Function.update_of_ne hsd]
      exact h.bound sd
  · simp only [State.take, State.setPc, RteRing.setHead_size]
    exact h.slots
  · intro u
    by_cases hut : u = t
    · subst hut
      have hcapacity : l.n ≤ s.ring.capacity := by
        have hle := h.bound_le c.side
        have htail := (h.tiles c.side).tail_le
        rw [BitVec.le_def]
        omega
      simp only [State.take, State.setPc, Function.update_self]
      refine ⟨hpermitted, hlooking.bits, 0, by omega, ?_, ?_⟩
      · rw [hlooking.bits, copies_eq h.wellFormed _ hcapacity, RteRing.setHead_size,
          List.range_eq_range', Nat.sub_zero]
      · intro i hi
        omega
    · have hu := h.threads u
      rw [show (s.take t c l).threads u = s.threads u from Function.update_of_ne hut _ _]
      apply hu.frame (s.take t c l)
      · exact RteRing.setHead_size _ _ _
      · intro sd
        by_cases hsd : sd = c.side
        · subst hsd
          simp [State.take]
        · simp [State.take, hsd]
      · intro sd hsd
        have hne : sd ≠ c.side := by
          intro heq
          subst heq
          have ht := hpermitted.alone (by rw [hsd]; rfl)
          rw [hsd] at ht
          cases ht
          exact hut rfl
        simp [State.take, hne]
      · intro sd
        rw [State.take_bound]
      · exact List.prefix_refl _
      · intro start n _ i _
        rfl
      · intro c l _
        rfl

/-! ### Copying -/

omit [DecidableEq τ] in
theorem Inv.slot_ne (h : Inv policy s) {i j : ℕ} (hi : (s.passed .cons).length ≤ i) (hij : i < j)
    (hj : j < s.taken .prod) : i % s.ring.size.toNat ≠ j % s.ring.size.toNat := by
  intro heq
  have hbound := h.bound .prod
  have hcapacity := BitVec.lt_def.mp h.wellFormed.capacity
  simp only [State.bound] at hbound
  have hdvd := (Nat.modEq_iff_dvd' (by omega)).mp heq
  have hle := Nat.le_of_dvd (by omega) hdvd
  omega

omit [DecidableEq τ] in
theorem todo_eq_cons {k n idx i size stamp : ℕ} {todo : List (ℕ × ℕ)}
    (h : (idx, i) :: todo = (List.range' k (n - k)).map fun i => ((stamp + i) % size, i)) :
    k < n ∧ i = k ∧ idx = (stamp + k) % size ∧
      todo = (List.range' (k + 1) (n - (k + 1))).map fun i => ((stamp + i) % size, i) := by
  have hlt : k < n := by
    by_contra hle
    rw [show n - k = 0 by omega] at h
    simp at h
  rw [show n - k = n - (k + 1) + 1 by omega, List.range'_succ, List.map_cons] at h
  injection h with hhead htail
  injection hhead with hidx hi
  exact ⟨hlt, hi, hidx, htail⟩

theorem Inv.copyCons (h : Inv policy s) {idx i : ℕ} {todo : List (ℕ × ℕ)}
    (hpc : s.threads t = .copy c l ((idx, i) :: todo)) (hside : c.side = .cons) :
    Inv policy (s.copy t c l idx i todo) := by
  have hthread := h.threads t
  rw [hpc] at hthread
  obtain ⟨hpermitted, hbits, k, hk, htodo, hcopied⟩ := hthread
  obtain ⟨hlt, rfl, rfl, rfl⟩ := todo_eq_cons htodo
  have hclaim : (s.threads t).claim .cons = some (l.stamp, l.n.toNat) := by
    rw [hpc]
    exact if_pos hside
  have hwithin := (h.tiles .cons).within t _ _ hclaim
  have hbound := h.bound .cons
  simp only [State.bound] at hbound
  rw [State.copy_cons hside]
  apply h.setPc
  · refine ⟨hpermitted, hbits, i + 1, hlt, rfl, ?_⟩
    intro j hj
    have hold := hcopied j
    simp only [hside] at hold ⊢
    by_cases hji : j = i
    · subst hji
      rw [Function.update_self]
      exact h.slots _ (by omega) (by omega)
    · rw [Function.update_of_ne hji]
      exact hold (by omega)
  · intro sd
    rw [hpc]
    rfl

theorem Inv.copyProd (h : Inv policy s) {idx i : ℕ} {todo : List (ℕ × ℕ)}
    (hpc : s.threads t = .copy c l ((idx, i) :: todo)) (hside : c.side = .prod) :
    Inv policy (s.copy t c l idx i todo) := by
  have hthread := h.threads t
  rw [hpc] at hthread
  obtain ⟨hpermitted, hbits, k, hk, htodo, hcopied⟩ := hthread
  obtain ⟨hlt, rfl, rfl, rfl⟩ := todo_eq_cons htodo
  have hclaim : (s.threads t).claim .prod = some (l.stamp, l.n.toNat) := by
    rw [hpc]
    exact if_pos hside
  have hwithin := (h.tiles .prod).within t _ _ hclaim
  have hcons := h.fifo.length_le
  generalize htodo' : ((List.range' (i + 1) (l.n.toNat - (i + 1))).map
    fun i => ((l.stamp + i) % s.ring.size.toNat, i)) = todo
  generalize hs' : s.copy t c l ((l.stamp + i) % s.ring.size.toNat) i todo = s'
  rw [State.copy_prod hside] at hs'
  -- the slot that is written is none that another place of the ring has
  have hother : ∀ j, (s.passed .cons).length ≤ j → j < s.taken .prod → j ≠ l.stamp + i →
      s'.slots (j % s.ring.size.toNat) = s.slots (j % s.ring.size.toNat) := by
    intro j hj hj' hne
    subst hs'
    apply Function.update_of_ne
    rcases Nat.lt_or_gt_of_ne hne with hlt' | hlt'
    · exact h.slot_ne hj hlt' (by omega)
    · exact (h.slot_ne (by omega) hlt' hj').symm
  have hring : s'.ring = s.ring := by
    rw [← hs']
    rfl
  have hok : ThreadOk policy s' t (.copy c l todo) := by
    refine ⟨hpermitted, hbits, i + 1, hlt, ?_, ?_⟩
    · rw [hring]
      exact htodo'.symm
    · intro j hj
      have hold := hcopied j
      simp only [hside, hring] at hold ⊢
      by_cases hji : j = i
      · subst hji
        rw [← hs']
        exact Function.update_self _ _ _
      · rw [hother (l.stamp + j) (by omega) (by omega) (by omega)]
        exact hold (by omega)
  apply h.ofLocal s' _ hring _ _ _ _ hok
  · intro sd
    rw [hpc]
    rfl
  · rw [← hs']
    rfl
  · rw [← hs']
    rfl
  · rw [← hs']
    rfl
  · intro j hj hj'
    exact hother j hj (by omega) (by omega)
  · intro u hut start n hu j hj
    have hwithin' := (h.tiles .prod).within u _ _ hu
    have hapart := (h.tiles .prod).apart u t _ _ _ _ hu hclaim hut
    exact hother (start + j) (by omega) (by omega) (by omega)

/-! ### Moving the tail -/

omit [DecidableEq τ] in
@[simp] theorem length_objects (objTable : ℕ → α) (n : BitVec 32) :
    (objects objTable n).length = n.toNat := by
  simp [objects]

omit [DecidableEq τ] in
theorem getElem?_objects {objTable : ℕ → α} {n : BitVec 32} {i : ℕ} (h : i < n.toNat) :
    (objects objTable n)[i]? = some (objTable i) := by
  simp [objects, h]

omit [DecidableEq τ] in
theorem append_objects_prefix {xs ys : List α} {objTable : ℕ → α} {n : BitVec 32}
    (h : xs <+: ys) (hread : ∀ i < n.toNat, ys[xs.length + i]? = some (objTable i)) :
    xs ++ objects objTable n <+: ys := by
  rw [List.prefix_iff_getElem?]
  intro i hi
  rw [← List.getElem?_eq_getElem hi]
  by_cases hlt : i < xs.length
  · rw [List.getElem?_append_left hlt, List.getElem?_eq_getElem hlt]
    exact List.prefix_iff_getElem?.mp h i hlt
  · have hi' : i - xs.length < n.toNat := by
      simp only [List.length_append, length_objects] at hi
      omega
    rw [List.getElem?_append_right (by omega), getElem?_objects hi', ← hread _ hi']
    congr 1
    omega

theorem State.pass_passed (sd : Side) :
    (s.pass t c l).passed sd =
      if sd = c.side then s.passed sd ++ objects c.objTable l.n else s.passed sd := by
  by_cases hsd : sd = c.side
  · subst hsd
    simp [State.pass]
  · simp [State.pass, State.ret, State.setPc, hsd]

theorem State.prefix_pass (sd : Side) : s.passed sd <+: (s.pass t c l).passed sd := by
  rw [State.pass_passed]
  split_ifs
  · exact List.prefix_append _ _
  · exact List.prefix_refl _

theorem State.bound_pass (sd : Side) : s.bound sd ≤ (s.pass t c l).bound sd := by
  have hcapacity : (s.pass t c l).ring.capacity = s.ring.capacity := RteRing.setTail_capacity _ _ _
  cases sd with
  | prod =>
      have hle := (State.prefix_pass (s := s) (t := t) (c := c) (l := l) .cons).length_le
      simp only [State.bound, hcapacity]
      omega
  | cons => exact (State.prefix_pass .prod).length_le

theorem Inv.pass (h : Inv policy s) (hpc : s.threads t = .storeTail c l) :
    Inv policy (s.pass t c l) := by
  have hthread := h.threads t
  rw [hpc] at hthread
  obtain ⟨hpermitted, hbits, hstamp, hcopied⟩ := hthread
  have hclaim : (s.threads t).claim c.side = some ((s.passed c.side).length, l.n.toNat) := by
    rw [hpc, ← hstamp]
    exact if_pos rfl
  have hsize : (s.pass t c l).ring.size = s.ring.size := RteRing.setTail_size _ _ _
  have hfifo : (s.pass t c l).passed .cons <+: (s.pass t c l).passed .prod := by
    cases hside : c.side with
    | prod =>
        rw [State.pass_passed, if_neg (by simp [hside])]
        exact h.fifo.trans (State.prefix_pass .prod)
    | cons =>
        rw [State.pass_passed, State.pass_passed, if_pos hside.symm, if_neg (by simp [hside])]
        apply append_objects_prefix h.fifo
        intro i hi
        have hread := hcopied i hi
        simp only [hside] at hread hstamp
        rwa [← hstamp]
  refine ⟨RteRing.setTail_wellFormed h.wellFormed _ _, ?_, ?_, ?_, ?_, hfifo, ?_, ?_⟩
  · intro sd
    rw [show (s.pass t c l).ring = s.ring.setTail l.newHead c.side from rfl,
      RteRing.setTail_head]
    exact h.head sd
  · intro sd
    rw [show (s.pass t c l).ring = s.ring.setTail l.newHead c.side from rfl,
      RteRing.setTail_tail, State.pass_passed]
    split_ifs with hsd
    · rw [newHead_eq hbits, List.length_append, length_objects, hsd, hstamp]
    · exact h.tail sd
  · intro sd
    rw [show (s.pass t c l).taken = s.taken from rfl, State.pass_passed]
    split_ifs with hsd
    · subst hsd
      rw [List.length_append, length_objects]
      apply (h.tiles c.side).release hclaim
      · rw [show (s.pass t c l).threads t = .idle from Function.update_self _ _ _]
        rfl
      · intro u hut
        exact claim_of_ne hut c.side
    · apply (h.tiles sd).congr
      intro u
      by_cases hut : u = t
      · subst hut
        have hne : c.side ≠ sd := fun heq => hsd heq.symm
        rw [show (s.pass u c l).threads u = .idle from Function.update_self _ _ _, hpc]
        exact (if_neg hne).symm
      · exact claim_of_ne hut sd
  · intro sd
    exact (h.bound sd).trans (State.bound_pass sd)
  · intro j hj hj'
    have hcons := (State.prefix_pass (s := s) (t := t) (c := c) (l := l) .cons).length_le
    rw [hsize, show (s.pass t c l).slots = s.slots from rfl]
    by_cases hold : j < (s.passed .prod).length
    · rw [← h.slots j (by omega) hold]
      obtain ⟨more, hmore⟩ := State.prefix_pass (s := s) (t := t) (c := c) (l := l) .prod
      rw [← hmore, List.getElem?_append_left hold]
    · rw [State.pass_passed] at hj' ⊢
      split_ifs at hj' ⊢ with hside
      · rw [List.length_append, length_objects] at hj'
        have hwritten := hcopied (j - (s.passed .prod).length) (by omega)
        simp only [← hside] at hwritten hstamp
        rw [hstamp, show (s.passed .prod).length + (j - (s.passed .prod).length) = j by omega]
          at hwritten
        rw [List.getElem?_append_right (by omega), getElem?_objects (by omega), hwritten]
      · omega
  · intro u
    by_cases hut : u = t
    · subst hut
      rw [show (s.pass u c l).threads u = .idle from Function.update_self _ _ _]
      trivial
    · rw [show (s.pass t c l).threads u = s.threads u from Function.update_of_ne hut _ _]
      apply (h.threads u).frame (s.pass t c l) hsize
      · intro sd
        exact le_refl _
      · intro sd _
        rfl
      · exact State.bound_pass
      · exact State.prefix_pass .prod
      · intro start n _ i _
        rfl
      · intro c' l' hu
        rw [State.pass_passed]
        split_ifs with hsd
        · -- no other call can have its turn on this side
          have hu' := h.threads u
          rw [hu] at hu'
          have hclaim' : (s.threads u).claim c.side = some (l'.stamp, l'.n.toNat) := by
            rw [hu]
            exact if_pos hsd
          have hapart := (h.tiles c.side).apart u t _ _ _ _ hclaim' hclaim hut
          have hwithin := (h.tiles c.side).within u _ _ hclaim'
          have hwithin' := (h.tiles c.side).within t _ _ hclaim
          have hstamp' := hu'.2.2.1
          rw [hsd] at hstamp'
          omega
        · rfl

end SoftwareSwitches.Ring
