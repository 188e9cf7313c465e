import SoftwareSwitches.Mempool.Conservation

/-!
# Runs of a pool

A pool is created empty; its objects are added one by one and then go through the hands of
any threads, in any order.
-/

namespace SoftwareSwitches.Mempool

open SoftwareSwitches.Lib.Execution

variable {τ β : Type}

/-! ## Creating a pool -/

/-- `common_ring_alloc`: the ring of a pool of `size` objects, `ring_mp_mc` having no flags. -/
def commonRingAlloc (name : List UInt8) (size : BitVec 32) : ℤ × Ring.RteRing :=
  Ring.rteRingInit name (Ring.rteAlign32pow2 (size + 1)) 0

theorem commonRingAlloc_room {name : List UInt8} {size : BitVec 32} {r : Ring.RteRing}
    (hsize : size.toNat < 2 ^ 31) (h : commonRingAlloc name size = (0, r)) :
    r.WellFormed ∧ size.toNat ≤ r.capacity.toNat := by
  have hpow := Ring.rteAlign32pow2_of_lt hsize
  have hsizes := Ring.rteRingInit_sizes (congrArg Prod.fst h)
  rw [show (Ring.rteRingInit name (Ring.rteAlign32pow2 (size + 1)) 0).2 = r from
    congrArg Prod.snd h] at hsizes
  obtain ⟨hcount, hmask, hcapacity⟩ := hsizes
  have hne : Ring.rteAlign32pow2 (size + 1) ≠ 0 := by
    intro hzero
    have hpos := Nat.two_pow_pos size.toNat.size
    have hzero' : (0 : BitVec 32).toNat = 0 := rfl
    rw [hzero] at hpow
    omega
  have hcount' : r.size = Ring.rteAlign32pow2 (size + 1) := hcount
  have hmask' : r.mask = r.size - 1 := by
    rw [hcount']
    exact hmask
  have hcapacity' : r.capacity = Ring.rteAlign32pow2 (size + 1) - 1 := hcapacity
  refine ⟨?_, ?_⟩
  · rw [Ring.wellFormed_count_iff hcount' _ hmask' hcapacity']
    · exact hne
    · rw [Ring.powerOf2_iff]
      exact Or.inr ⟨_, hpow⟩
  · have hlt := Nat.lt_size_self size.toNat
    rw [hcapacity', Ring.toNat_sub_one hne, hpow]
    omega

/-- An empty ring; the objects that are to be added are in the hands of `owner`. -/
def State.init [DecidableEq τ] (r : Ring.RteRing) (slots : ℕ → β) (owner : τ) (pool : List β) :
    State τ β :=
  { ring := Ring.State.init r slots
    lcores := fun t =>
      { cache := []
        hand := if t = owner then pool else 0
        task := .none
        peak := 0 } }

/-! ## One step -/

def Fresh (s : State τ β) : Action τ β → Prop
  | .next t => Ring.Fresh s.ring (.next t : Ring.Action τ β)
  | _ => True

instance (s : State τ β) (a : Action τ β) : Decidable (Fresh s a) :=
  match a with
  | .next t => inferInstanceAs (Decidable (Ring.Fresh s.ring (.next t : Ring.Action τ β)))
  | .put _ _ => isTrue trivial
  | .get _ _ => isTrue trivial
  | .add _ _ => isTrue trivial
  | .flush _ => isTrue trivial

section

variable [Fintype τ] [DecidableEq τ] [DecidableEq β] [Inhabited β] {cfg : Config τ}
  {pool : Multiset β} {s s' : State τ β}

theorem inv_step (hcfg : cfg.cacheSize ≤ cacheMaxSize) {a : Action τ β} (h : Inv cfg pool s)
    (hfresh : Fresh s a) (hstep : step cfg s a = some s') : Inv cfg pool s' := by
  cases a with
  | next t =>
      simp only [step, Option.map_eq_some_iff] at hstep
      obtain ⟨ring, hnext, rfl⟩ := hstep
      exact inv_next hcfg h hfresh hnext
  | put t objs =>
      simp only [step] at hstep
      split at hstep
      · rename_i htask
        split_ifs at hstep with hobjs
        cases hstep
        exact h.genericPut hcfg htask hobjs
      · cases hstep
  | get t n =>
      simp only [step] at hstep
      split at hstep
      · rename_i htask
        split_ifs at hstep
        cases hstep
        exact h.genericGet hcfg htask n
      · cases hstep
  | add t obj =>
      simp only [step] at hstep
      split at hstep
      · rename_i htask
        split_ifs at hstep with hobj
        cases hstep
        have hle : (([obj] : List β) : Multiset β) ≤ (s.lcores t).hand :=
          Multiset.singleton_le.mpr hobj
        apply h.enqueueBulk (h.idle htask)
        · rw [Lcore.owned_of_none htask]
          simp only
          rw [add_right_comm, tsub_add_cancel_of_le hle]
        · exact (h.cache t).peak
        · exact (h.cache t).length
        · exact (h.cache t).empty
      · cases hstep
  | flush t =>
      simp only [step] at hstep
      split at hstep
      · rename_i htask
        cases hstep
        exact h.cacheFlush htask _
      · cases hstep

omit [DecidableEq β] in
theorem inv_init (r : Ring.RteRing) {name : List UInt8} {count flags : BitVec 32}
    (hinit : Ring.rteRingInit name count flags = (0, r)) (hr : r.WellFormed) (slots : ℕ → β)
    (owner : τ) (objs : List β) (hobjs : objs.length ≤ r.capacity.toNat) :
    Inv cfg objs (State.init r slots owner objs) := by
  refine ⟨Ring.inv_init _ hinit hr slots, ?_, hobjs, ?_, fun t => rfl, ?_⟩
  · exact Ring.answered_init r slots
  · have hsum : ∑ t : τ, ((State.init r slots owner objs).lcores t).owned =
        (objs : Multiset β) := by
      rw [Finset.sum_eq_single owner]
      · simp [State.init, Lcore.owned, Task.inFlight]
      · intro t _ hne
        simp [State.init, Lcore.owned, Task.inFlight, hne]
      · intro hmem
        exact absurd (Finset.mem_univ owner) hmem
    rw [State.total, hsum]
    simp [State.init, Ring.State.init, contents]
  · intro t
    refine ⟨Nat.zero_le _, Nat.zero_le _, fun _ => rfl, ?_⟩
    intro n hfill
    cases hfill

theorem inv_run (hcfg : cfg.cacheSize ≤ cacheMaxSize) {acts : List (Action τ β)}
    (h : Inv cfg pool s) (hrun : exec (guarded Fresh (step cfg)) acts s = some s') :
    Inv cfg pool s' := by
  apply exec_invariant _ h hrun
  intro s a t hs hstep
  obtain ⟨hfresh, hstep⟩ := guarded_eq_some.mp hstep
  exact inv_step hcfg hs hfresh hstep

end

/-! ## Whole runs -/

variable [Fintype τ] [DecidableEq τ] [DecidableEq β] [Inhabited β]

omit [Fintype τ] [DecidableEq τ] [DecidableEq β] [Inhabited β] in
theorem accepted_cacheSize {cfg : Config τ} {n : ℕ} (h : cfg.accepted n = true) :
    cfg.cacheSize ≤ cacheMaxSize := by
  simp only [Config.accepted, Bool.and_eq_true, decide_eq_true_eq] at h
  exact h.1.2

theorem inv_pool {cfg : Config τ} {name : List UInt8} {size : BitVec 32} {r : Ring.RteRing}
    (hcfg : cfg.accepted size.toNat = true) (hsize : size.toNat < 2 ^ 31)
    (hinit : commonRingAlloc name size = (0, r)) {slots : ℕ → β} {owner : τ} {pool : List β}
    (hpool : pool.length ≤ size.toNat) {acts : List (Action τ β)} {s : State τ β}
    (hrun : exec (guarded Fresh (step cfg)) acts (State.init r slots owner pool) = some s) :
    Inv cfg pool s := by
  obtain ⟨hr, hroom⟩ := commonRingAlloc_room hsize hinit
  have hstart : Inv cfg pool (State.init r slots owner pool) :=
    inv_init r hinit hr slots owner pool (hpool.trans hroom)
  exact inv_run (accepted_cacheSize hcfg) hstart hrun

/-- Whatever the threads do, in whatever order their accesses to the ring fall, each object of
the pool is in exactly one place: in the ring, in a cache, in the hands of one thread or on
its way back.  So no two threads ever have the same object, and no cache writes beyond its
array. -/
theorem mempool_conserves (cfg : Config τ) (name : List UInt8) (size : BitVec 32)
    (r : Ring.RteRing) (hcfg : cfg.accepted size.toNat = true) (hsize : size.toNat < 2 ^ 31)
    (hinit : commonRingAlloc name size = (0, r)) (slots : ℕ → β) (owner : τ) (pool : List β)
    (hpool : pool.length ≤ size.toNat) (acts : List (Action τ β)) (s : State τ β)
    (hrun : exec (guarded Fresh (step cfg)) acts (State.init r slots owner pool) = some s) :
    s.total = pool ∧ (∀ t, (s.lcores t).peak ≤ cacheEntries) ∧
      (pool.Nodup → ∀ t u, t ≠ u → ∀ x ∈ (s.lcores t).hand, x ∉ (s.lcores u).hand) := by
  have h := inv_pool hcfg hsize hinit hpool hrun
  refine ⟨h.total, fun t => (h.cache t).peak, ?_⟩
  intro hnodup t u htu x ht hu
  have hone : Multiset.count x s.total ≤ 1 := by
    rw [h.total]
    exact Multiset.nodup_iff_count_le_one.mp (Multiset.coe_nodup.mpr hnodup) x
  have hown : ∀ v, Multiset.count x (s.lcores v).hand ≤ Multiset.count x (s.lcores v).owned := by
    intro v
    rw [Lcore.owned, Multiset.count_add, Multiset.count_add]
    omega
  have htwo : Multiset.count x (s.lcores t).owned + Multiset.count x (s.lcores u).owned ≤
      Multiset.count x s.total := by
    rw [State.total, Multiset.count_add, Multiset.count_sum']
    have hsum := Finset.add_le_sum (f := fun v => Multiset.count x (s.lcores v).owned)
      (fun _ _ => Nat.zero_le _) (Finset.mem_univ t) (Finset.mem_univ u) htu
    omega
  have hownt := hown t
  have hownu := hown u
  have ht' := Multiset.one_le_count_iff_mem.mpr ht
  have hu' := Multiset.one_le_count_iff_mem.mpr hu
  omega

def twoLcores : Config Bool :=
  { cacheSize := 2, eal := fun _ => true }

def adding (obj : ℕ) : List (Action Bool ℕ) :=
  [.add false obj, .next false, .next false, .next false, .next false, .next false, .next false]

/-- The first lcore adds three objects.  The second one gets one of them and fills its cache
with the others; then the first asks for one in vain. -/
def threeObjects : List (Action Bool ℕ) :=
  adding 1 ++ adding 2 ++ adding 3 ++
    [.get true 1, .next true, .next true, .next true, .next true, .next true, .next true,
     .next true, .next true, .get false 1, .next false, .next false, .next false, .next false]

theorem mempool_conserves_threeObjects :
    ∃ s, exec (guarded Fresh (step twoLcores)) threeObjects
        (State.init (commonRingAlloc [] 3).2 (fun _ => 0) false [1, 2, 3]) = some s ∧
      (s.lcores true).cache = [1, 2] ∧ s.total = ([1, 2, 3] : List ℕ) := by
  have hend : (exec (guarded Fresh (step twoLcores)) threeObjects
      (State.init (commonRingAlloc [] 3).2 (fun _ => 0) false [1, 2, 3])).map
        (fun s => (s.lcores true).cache) = some [1, 2] := by
    decide +kernel
  obtain ⟨s, hrun, hcache⟩ := Option.map_eq_some_iff.mp hend
  refine ⟨s, hrun, hcache, ?_⟩
  exact (mempool_conserves twoLcores [] 3 _ (by decide) (by decide) rfl (fun _ => 0) false
    [1, 2, 3] (by decide) threeObjects s hrun).1

/-! ## Counting -/

def rteMempoolAvailCount (cfg : Config τ) (size : ℕ) (s : State τ β) : ℕ :=
  let count := (Ring.rteRingCount s.ring.ring).toNat
  if cfg.cacheSize = 0 then count
  else min (count + ∑ t, if cfg.eal t then (s.lcores t).cache.length else 0) size

def rteMempoolInUseCount (cfg : Config τ) (size : ℕ) (s : State τ β) : ℕ :=
  size - rteMempoolAvailCount cfg size s

omit [DecidableEq β] in
theorem Inv.availCount_eq {cfg : Config τ} {pool : Multiset β} {s : State τ β} {size : ℕ}
    (h : Inv cfg pool s) (hpool : pool.card ≤ size) (hidle : ∀ t, (s.lcores t).task = .none) :
    rteMempoolAvailCount cfg size s + ∑ t, (s.lcores t).hand.card = pool.card := by
  have hcount : (Ring.rteRingCount s.ring.ring).toNat = (contents s.ring).length := by
    rw [h.ring.toNat_rteRingCount]
    simp [contents]
  have hcached : ∀ t, (s.lcores t).cache.length =
      if cfg.cacheSize = 0 then 0 else if cfg.eal t then (s.lcores t).cache.length else 0 := by
    intro t
    have hempty := (h.cache t).empty
    unfold Config.defaultCache at hempty
    split_ifs with hzero heal
    · rw [hempty (by simp [hzero])]
      rfl
    · rfl
    · rw [hempty (by simp [hzero, heal])]
      rfl
  have hcard : (contents s.ring).length + ∑ t, (s.lcores t).cache.length +
      ∑ t, (s.lcores t).hand.card = pool.card := by
    rw [← h.total, State.total, Multiset.card_add, Multiset.card_sum, Multiset.coe_card, add_assoc,
      ← Finset.sum_add_distrib]
    congr 1
    apply Finset.sum_congr rfl
    intro t _
    rw [Lcore.owned_of_none (hidle t), Multiset.card_add, Multiset.coe_card, add_comm]
  unfold rteMempoolAvailCount
  rw [hcount]
  by_cases hzero : cfg.cacheSize = 0
  · simp only [hzero, if_true] at hcached ⊢
    rw [Finset.sum_congr rfl fun t _ => hcached t] at hcard
    simpa using hcard
  · simp only [hzero, if_false] at hcached ⊢
    rw [← Finset.sum_congr rfl fun t _ => hcached t]
    omega

/-- While no call is under way, the pool counts as in use exactly what the threads have,
provided that it has got all its objects. -/
theorem mempool_counts (cfg : Config τ) (name : List UInt8) (size : BitVec 32)
    (r : Ring.RteRing) (hcfg : cfg.accepted size.toNat = true) (hsize : size.toNat < 2 ^ 31)
    (hinit : commonRingAlloc name size = (0, r)) (slots : ℕ → β) (owner : τ) (pool : List β)
    (hpool : pool.length = size.toNat) (acts : List (Action τ β)) (s : State τ β)
    (hrun : exec (guarded Fresh (step cfg)) acts (State.init r slots owner pool) = some s)
    (hidle : ∀ t, (s.lcores t).task = .none) :
    rteMempoolInUseCount cfg size.toNat s = ∑ t, (s.lcores t).hand.card := by
  have h := inv_pool hcfg hsize hinit hpool.le hrun
  have havail := h.availCount_eq hpool.le hidle
  rw [Multiset.coe_card, hpool] at havail
  unfold rteMempoolInUseCount
  omega

theorem mempool_counts_threeObjects :
    ∃ s, exec (guarded Fresh (step twoLcores)) threeObjects
        (State.init (commonRingAlloc [] 3).2 (fun _ => 0) false [1, 2, 3]) = some s ∧
      rteMempoolInUseCount twoLcores 3 s = ∑ t, (s.lcores t).hand.card := by
  have hend : (exec (guarded Fresh (step twoLcores)) threeObjects
      (State.init (commonRingAlloc [] 3).2 (fun _ => 0) false [1, 2, 3])).map
        (fun s => ((s.lcores false).task, (s.lcores true).task)) = some (.none, .none) := by
    decide +kernel
  obtain ⟨s, hrun, htasks⟩ := Option.map_eq_some_iff.mp hend
  rw [Prod.mk.injEq] at htasks
  refine ⟨s, hrun, ?_⟩
  exact mempool_counts twoLcores [] 3 _ (by decide) (by decide) rfl (fun _ => 0) false [1, 2, 3]
    rfl threeObjects s hrun (Bool.forall_bool.mpr htasks)

end SoftwareSwitches.Mempool
