import SoftwareSwitches.Mempool.Machine
import Mathlib.Algebra.BigOperators.Group.Finset.Piecewise
import Mathlib.Algebra.Order.BigOperators.Group.Finset
import Mathlib.Algebra.Order.Group.Multiset
import Mathlib.Tactic.Abel

/-!
# No object is lost and none is given out twice

Every object of the pool is in the ring, in a cache, in the hands of an application or on
its way into the ring, and in one of these places only.  The ring has room for all objects,
so that putting one back cannot fail, which is as well since the code takes no notice of it.
-/

namespace SoftwareSwitches.Mempool

open SoftwareSwitches.Ring (Side Behavior Call Pc)
open SoftwareSwitches.Lib.Execution
open SoftwareSwitches.Lib.Tickets

variable {τ β : Type}

def contents (r : Ring.State τ β) : List β :=
  (r.passed .prod).drop (r.passed .cons).length

def Task.inFlight : Task β → Multiset β
  | .put objs => objs
  | _ => 0

def Lcore.owned (lc : Lcore β) : Multiset β :=
  lc.hand + lc.cache + lc.task.inFlight

theorem Lcore.owned_of_none {lc : Lcore β} (htask : lc.task = .none) :
    lc.owned = lc.hand + lc.cache := by
  rw [Lcore.owned, htask]
  exact add_zero _

theorem Lcore.owned_serve [Inhabited β] (lc : Lcore β) (n : ℕ) :
    (lc.serve n).owned = lc.hand + lc.cache := by
  rw [Lcore.owned_of_none rfl]
  simp only [Lcore.serve]
  rw [add_assoc, Multiset.coe_add]
  congr 1
  exact Multiset.coe_eq_coe.mpr (List.perm_append_comm.trans (by rw [List.take_append_drop]))

section

variable [Fintype τ]

def State.total (s : State τ β) : Multiset β :=
  contents s.ring + ∑ t, (s.lcores t).owned

variable [DecidableEq τ]

theorem sum_owned_update (lcores : τ → Lcore β) (t : τ) (lc : Lcore β) :
    ∑ u, (Function.update lcores t lc u).owned + (lcores t).owned =
      ∑ u, (lcores u).owned + lc.owned := by
  have hupdate : (fun u => (Function.update lcores t lc u).owned) =
      Function.update (fun u => (lcores u).owned) t lc.owned := by
    ext1 u
    exact Function.apply_update (fun _ => Lcore.owned) lcores t lc u
  rw [hupdate, Finset.sum_update_of_mem (Finset.mem_univ t),
    Finset.sum_eq_add_sum_sdiff_singleton_of_mem (Finset.mem_univ t) fun u => (lcores u).owned]
  abel

end

/-! ## What the ring holds -/

section

variable [DecidableEq τ] {policy : Ring.Policy τ} {r : Ring.State τ β} {t : τ} {c : Call β}
  {l : Ring.Locals}

theorem contents_pass_prod (h : Ring.Inv policy r) (hside : c.side = .prod) :
    contents (r.pass t c l) = contents r ++ Ring.objects c.objTable l.n := by
  unfold contents
  rw [Ring.State.pass_passed, Ring.State.pass_passed, if_pos hside.symm,
    if_neg (by rw [hside]; simp)]
  exact List.drop_append_of_le_length h.fifo.length_le

theorem contents_pass_cons (h : Ring.Inv policy (r.pass t c l)) (hside : c.side = .cons) :
    contents r = Ring.objects c.objTable l.n ++ contents (r.pass t c l) := by
  have hfifo := h.fifo
  unfold contents
  rw [Ring.State.pass_passed, Ring.State.pass_passed, if_pos hside.symm,
    if_neg (by rw [hside]; simp)] at hfifo ⊢
  obtain ⟨rest, hrest⟩ := hfifo
  rw [← hrest, List.drop_left, List.append_assoc, List.drop_left]

end

/-! ## The invariant -/

/-- The call of the ring a thread is in is the one its task asks for. -/
def Coupled [Inhabited β] (cfg : Config τ) (lc : Lcore β) (pc : Pc β) : Prop :=
  match lc.task with
  | .none => pc = .idle
  | .put objs => ∃ c, pc.call = some c ∧ (enqueueCall objs).Same c
  | .fill n => ∃ c, pc.call = some c ∧
      (dequeueCall (n + (cfg.cacheSize - lc.cache.length))).Same c
  | .get n => ∃ c, pc.call = some c ∧ (dequeueCall n).Same c

/-- The cache is within its array, empty where there is none, and a refill is no larger than
the cache has room for. -/
structure CacheOk (cfg : Config τ) (t : τ) (lc : Lcore β) : Prop where
  peak : lc.peak ≤ cacheEntries
  length : lc.cache.length ≤ flushthresh cacheMaxSize
  empty : cfg.defaultCache t = none → lc.cache = []
  fill : ∀ n, lc.task = .fill n →
    cfg.defaultCache t ≠ none ∧ lc.cache.length < n ∧ n < cfg.cacheSize

structure Inv [Fintype τ] [DecidableEq τ] [Inhabited β] (cfg : Config τ) (pool : Multiset β)
    (s : State τ β) : Prop where
  ring : Ring.Inv (fun _ => none) s.ring
  answered : Ring.Answered s.ring
  capacity : pool.card ≤ s.ring.ring.capacity.toNat
  total : s.total = pool
  coupled : ∀ t, Coupled cfg (s.lcores t) (s.ring.threads t)
  cache : ∀ t, CacheOk cfg t (s.lcores t)

/-! ## Putting back cannot fail -/

section

variable [Fintype τ] [DecidableEq τ] [Inhabited β] {cfg : Config τ} {pool : Multiset β}
  {s : State τ β} {t : τ}

theorem Inv.places_le (h : Inv cfg pool s) (t : τ) :
    (places ((s.ring.threads t).claim .prod)).card ≤ (s.lcores t).task.inFlight.card := by
  have hcoupled := h.coupled t
  have hdecided := h.answered.threads t
  have hheld : ∀ (c : Call β) (l : Ring.Locals), (s.ring.threads t).call = some c →
      c.side = .prod → l.n = c.limit l.entries →
      l.n.toNat ≤ (s.lcores t).task.inFlight.card := by
    intro c l hcall hside hn
    unfold Coupled at hcoupled
    cases htask : (s.lcores t).task with
    | none =>
        rw [htask] at hcoupled
        rw [hcoupled] at hcall
        cases hcall
    | put objs =>
        rw [htask] at hcoupled
        obtain ⟨c', hcall', hsame⟩ := hcoupled
        rw [hcall, Option.some.injEq] at hcall'
        subst hcall'
        have hle := c.limit_le_asked l.entries
        rw [hsame.n, enqueueCall, BitVec.toNat_ofNat] at hle
        rw [hn]
        exact hle.trans (Nat.mod_le _ _)
    | fill n =>
        rw [htask] at hcoupled
        obtain ⟨c', hcall', hsame⟩ := hcoupled
        rw [hcall, Option.some.injEq] at hcall'
        subst hcall'
        rw [hsame.side] at hside
        cases hside
    | get n =>
        rw [htask] at hcoupled
        obtain ⟨c', hcall', hsame⟩ := hcoupled
        rw [hcall, Option.some.injEq] at hcall'
        subst hcall'
        rw [hsame.side] at hside
        cases hside
  cases hpc : s.ring.threads t with
  | idle => exact Nat.zero_le _
  | loadHead c => exact Nat.zero_le _
  | loadTail c oldHead stamp => exact Nat.zero_le _
  | moveHead c l => exact Nat.zero_le _
  | copy c l todo =>
      rw [hpc] at hdecided
      simp only [Ring.Pc.claim]
      split_ifs with hside
      · simpa [places] using hheld c l (by rw [hpc]; rfl) hside hdecided.1
      · exact Nat.zero_le _
  | storeTail c l =>
      rw [hpc] at hdecided
      simp only [Ring.Pc.claim]
      split_ifs with hside
      · simpa [places] using hheld c l (by rw [hpc]; rfl) hside hdecided.1
      · exact Nat.zero_le _

theorem Inv.card_inFlight_le (h : Inv cfg pool s) :
    (contents s.ring).length + ∑ u, (s.lcores u).task.inFlight.card ≤ pool.card := by
  rw [← h.total, State.total, Multiset.card_add, Multiset.card_sum, Multiset.coe_card]
  apply Nat.add_le_add_left
  apply Finset.sum_le_sum
  intro u _
  rw [Lcore.owned, Multiset.card_add]
  omega

theorem Inv.put_length_lt (h : Inv cfg pool s) {objs : List β}
    (htask : (s.lcores t).task = .put objs) : objs.length < 2 ^ 32 := by
  have htotal := h.card_inFlight_le
  have hone : (s.lcores t).task.inFlight.card ≤ ∑ u, (s.lcores u).task.inFlight.card :=
    Finset.single_le_sum (f := fun u => (s.lcores u).task.inFlight.card)
      (fun _ _ => Nat.zero_le _) (Finset.mem_univ t)
  have hobjs : (s.lcores t).task.inFlight.card = objs.length := by
    rw [htask]
    rfl
  have hcapacity := h.capacity
  have hlt := s.ring.ring.capacity.isLt
  omega

theorem Inv.put_fits (h : Inv cfg pool s) {objs : List β} (htask : (s.lcores t).task = .put objs)
    (hclaim : (s.ring.threads t).claim .prod = none) :
    s.ring.taken .prod + objs.length ≤
      (s.ring.passed .cons).length + s.ring.ring.capacity.toNat := by
  have hle := (h.ring.tiles .prod).tail_le
  have hsum := (h.ring.tiles .prod).sum_card
  have hplaces : ∑ u, (places ((s.ring.threads u).claim .prod)).card + objs.length ≤
      ∑ u, (s.lcores u).task.inFlight.card := by
    calc ∑ u, (places ((s.ring.threads u).claim .prod)).card + objs.length
        = ∑ u, ((places ((s.ring.threads u).claim .prod)).card +
            if u = t then objs.length else 0) := by
          rw [Finset.sum_add_distrib, Finset.sum_ite_eq' Finset.univ t]
          simp
      _ ≤ ∑ u, (s.lcores u).task.inFlight.card := by
          apply Finset.sum_le_sum
          intro u _
          split_ifs with hut
          · subst hut
            rw [hclaim, htask]
            simp [places, Task.inFlight]
          · exact h.places_le u
  have htotal := h.card_inFlight_le
  have hcontents : (contents s.ring).length =
      (s.ring.passed .prod).length - (s.ring.passed .cons).length := by
    simp [contents]
  have hfifo := h.ring.fifo.length_le
  have hcapacity := h.capacity
  omega

theorem Inv.put_empty (h : Inv cfg pool s) {objs : List β} {c : Call β} {oldHead : BitVec 32}
    {stamp : ℕ} (hpc : s.ring.threads t = .loadTail c oldHead stamp)
    (hfresh : Ring.Fresh s.ring (.next t : Ring.Action τ β))
    (htask : (s.lcores t).task = .put objs)
    (hn : c.limit (Ring.entries s.ring.ring oldHead c.side) = 0) : objs = [] := by
  have hcoupled := h.coupled t
  simp only [Coupled, htask, hpc, Ring.Pc.call, Option.some.injEq, exists_eq_left'] at hcoupled
  have hthread := h.ring.threads t
  rw [hpc] at hthread
  obtain ⟨-, hlooking⟩ := hthread
  simp only [Ring.Fresh, Ring.State.lag, hpc] at hfresh
  have hentries := h.ring.toNat_entries hlooking.le hfresh
  have hside : c.side = .prod := hcoupled.side
  have hfits := h.put_fits htask (by rw [hpc]; rfl)
  have hlt := s.ring.ring.capacity.isLt
  have hle := (h.ring.tiles .prod).tail_le
  have hfifo := h.ring.fifo.length_le
  have hcn : c.n.toNat = objs.length := by
    rw [hcoupled.n, enqueueCall, BitVec.toNat_ofNat]
    exact Nat.mod_eq_of_lt (h.put_length_lt htask)
  rw [hside, ← hlooking.bits] at hentries
  have hlooking' := hlooking.le
  simp only [hside, Ring.State.bound] at hentries hlooking' hn
  rcases c.limit_cases (Ring.entries s.ring.ring oldHead .prod) with
    ⟨-, hall⟩ | ⟨hshort, -⟩ | ⟨hshort, -⟩
  · rw [hn] at hall
    rw [← hall] at hcn
    exact List.eq_nil_of_length_eq_zero hcn.symm
  · have hshort := BitVec.lt_def.mp hshort
    omega
  · have hshort := BitVec.lt_def.mp hshort
    omega

/-! ## One thread moves -/

/-- A step of one thread that takes what it loses from the ring or gives it to the ring. -/
theorem Inv.move (h : Inv cfg pool s) {ring : Ring.State τ β} {lc : Lcore β} (t : τ)
    (hring : Ring.Inv (fun _ => none) ring) (hanswered : Ring.Answered ring)
    (hcapacity : ring.ring.capacity = s.ring.ring.capacity)
    (hothers : ∀ u ≠ t, ring.threads u = s.ring.threads u)
    (htotal : (contents ring : Multiset β) + lc.owned =
      contents s.ring + (s.lcores t).owned)
    (hcoupled : Coupled cfg lc (ring.threads t)) (hcache : CacheOk cfg t lc) :
    Inv cfg pool { ring, lcores := Function.update s.lcores t lc } := by
  refine ⟨hring, hanswered, ?_, ?_, ?_, ?_⟩
  · simp only [hcapacity]
    exact h.capacity
  · have hsum := sum_owned_update s.lcores t lc
    have hpool := h.total
    simp only [State.total] at hpool ⊢
    apply add_right_cancel (b := (s.lcores t).owned)
    calc (contents ring : Multiset β) + ∑ u, (Function.update s.lcores t lc u).owned +
            (s.lcores t).owned
        = contents ring + lc.owned + ∑ u, (s.lcores u).owned := by
          rw [add_assoc, hsum]
          abel
      _ = pool + (s.lcores t).owned := by
          rw [htotal, ← hpool]
          abel
  · intro u
    by_cases hut : u = t
    · subst hut
      simp only [Function.update_self]
      exact hcoupled
    · simp only [Function.update_of_ne hut, hothers u hut]
      exact h.coupled u
  · intro u
    by_cases hut : u = t
    · subst hut
      simp only [Function.update_self]
      exact hcache
    · simp only [Function.update_of_ne hut]
      exact h.cache u

theorem Inv.setLcore (h : Inv cfg pool s) {lc : Lcore β}
    (howned : lc.owned = (s.lcores t).owned) (hcoupled : Coupled cfg lc (s.ring.threads t))
    (hcache : CacheOk cfg t lc) : Inv cfg pool (s.setLcore t lc) :=
  h.move t h.ring h.answered rfl (fun _ _ => rfl) (by rw [howned]) hcoupled hcache

theorem Inv.issue (h : Inv cfg pool s) {lc : Lcore β} {c : Call β}
    (hidle : s.ring.threads t = .idle) (hsingle : c.single = false)
    (howned : lc.owned = (s.lcores t).owned) (hcoupled : Coupled cfg lc (.loadHead c))
    (hcache : CacheOk cfg t lc) : Inv cfg pool ((s.setLcore t lc).issue t c) := by
  have hok : Ring.ThreadOk (fun _ => none) s.ring t (.loadHead c) := hsingle
  apply h.move t (h.ring.setPc hok ?_) (h.answered.setPc trivial) rfl
  · intro u hut
    exact Ring.State.setPc_of_ne hut
  · rw [howned]
    rfl
  · rw [Ring.State.setPc_self]
    exact hcoupled
  · exact hcache
  · intro sd
    rw [hidle]
    rfl

theorem Inv.idle (h : Inv cfg pool s) (htask : (s.lcores t).task = .none) :
    s.ring.threads t = .idle := by
  have hcoupled := h.coupled t
  unfold Coupled at hcoupled
  rwa [htask] at hcoupled

theorem Inv.enqueueBulk (h : Inv cfg pool s) (hidle : s.ring.threads t = .idle) {lc : Lcore β}
    {objs : List β} (howned : lc.hand + lc.cache + objs = (s.lcores t).owned)
    (hpeak : lc.peak ≤ cacheEntries) (hlength : lc.cache.length ≤ flushthresh cacheMaxSize)
    (hempty : cfg.defaultCache t = none → lc.cache = []) :
    Inv cfg pool (s.enqueueBulk t lc objs) := by
  apply h.issue hidle rfl
  · exact howned
  · exact ⟨enqueueCall objs, rfl, Ring.Call.Same.refl _⟩
  · refine ⟨hpeak, hlength, hempty, ?_⟩
    intro n hfill
    cases hfill

theorem Inv.ringDequeue (h : Inv cfg pool s) (hidle : s.ring.threads t = .idle) {lc : Lcore β}
    (n : ℕ) (howned : lc.hand + lc.cache = (s.lcores t).owned)
    (hpeak : lc.peak ≤ cacheEntries) (hlength : lc.cache.length ≤ flushthresh cacheMaxSize)
    (hempty : cfg.defaultCache t = none → lc.cache = []) :
    Inv cfg pool (s.ringDequeue t lc n) := by
  apply h.issue hidle rfl
  · rw [← howned]
    exact add_zero _
  · exact ⟨dequeueCall n, rfl, Ring.Call.Same.refl _⟩
  · refine ⟨hpeak, hlength, hempty, ?_⟩
    intro n hfill
    cases hfill

omit [Fintype τ] [DecidableEq τ] in
theorem Config.defaultCache_eq_some {t : τ} {size : ℕ} (h : cfg.defaultCache t = some size) :
    size = cfg.cacheSize := by
  unfold Config.defaultCache at h
  split_ifs at h
  exact (Option.some.inj h).symm

theorem Inv.genericPut [DecidableEq β] (hcfg : cfg.cacheSize ≤ cacheMaxSize) (h : Inv cfg pool s)
    (htask : (s.lcores t).task = .none) {objs : List β}
    (hobjs : (objs : Multiset β) ≤ (s.lcores t).hand) :
    Inv cfg pool (s.genericPut t objs (cfg.defaultCache t)) := by
  have hidle := h.idle htask
  have howned := Lcore.owned_of_none htask
  have hcache := h.cache t
  have hlength := hcache.length
  have hback : (s.lcores t).hand - objs + objs = (s.lcores t).hand := tsub_add_cancel_of_le hobjs
  have hall : (s.lcores t).hand - objs + (s.lcores t).cache + objs = (s.lcores t).owned := by
    rw [howned, add_right_comm, hback]
  have hentries : flushthresh cacheMaxSize + cacheMaxSize ≤ cacheEntries := by decide
  simp only [State.genericPut]
  split
  · exact h.enqueueBulk hidle hall hcache.peak hcache.length hcache.empty
  · rename_i size hsize
    have hsome : cfg.defaultCache t ≠ none := by
      rw [hsize]
      exact Option.some_ne_none size
    have hsize := Config.defaultCache_eq_some hsize
    have hflush : flushthresh size ≤ flushthresh cacheMaxSize := by
      unfold flushthresh
      omega
    split_ifs with hlarge hfull
    · exact h.enqueueBulk hidle hall hcache.peak hcache.length hcache.empty
    · apply h.enqueueBulk hidle
      · rw [← hall, add_assoc, Multiset.coe_add, List.take_append_drop, ← Multiset.coe_add,
          add_assoc]
      · have hpeak := hcache.peak
        simp only [List.length_append]
        omega
      · simp only [List.length_take]
        unfold flushthresh
        omega
      · intro hnone
        exact absurd hnone hsome
    · apply h.setLcore
      · rw [← hall, Lcore.owned]
        simp only [htask, Task.inFlight, add_zero, ← Multiset.coe_add, add_assoc]
      · rw [hidle]
        unfold Coupled
        simp only [htask]
      · refine ⟨?_, ?_, fun hnone => absurd hnone hsome, ?_⟩
        · have hpeak := hcache.peak
          simp only [List.length_append]
          omega
        · simp only [List.length_append] at hfull ⊢
          omega
        · intro n hfill
          simp only [htask] at hfill
          cases hfill

theorem Inv.genericGet [DecidableEq β] (hcfg : cfg.cacheSize ≤ cacheMaxSize) (h : Inv cfg pool s)
    (htask : (s.lcores t).task = .none) (n : ℕ) :
    Inv cfg pool (s.genericGet t n (cfg.defaultCache t)) := by
  have hidle := h.idle htask
  have howned := Lcore.owned_of_none htask
  have hcache := h.cache t
  have hpeak := hcache.peak
  have hlength := hcache.length
  have hentries : cacheMaxSize + cacheMaxSize ≤ cacheEntries := by decide
  simp only [State.genericGet]
  split
  · exact h.ringDequeue hidle n howned.symm hpeak hlength hcache.empty
  · rename_i size hsize
    have hsome : cfg.defaultCache t ≠ none := by
      rw [hsize]
      exact Option.some_ne_none size
    have hsize := Config.defaultCache_eq_some hsize
    split_ifs with hlarge hshort
    · exact h.ringDequeue hidle n howned.symm hpeak hlength hcache.empty
    · apply h.issue hidle rfl
      · rw [howned]
        exact add_zero _
      · refine ⟨_, rfl, ?_⟩
        simp only [hsize]
        exact Ring.Call.Same.refl _
      · refine ⟨?_, hlength, hcache.empty, ?_⟩
        · show max _ _ ≤ _
          omega
        · intro m hfill
          cases hfill
          exact ⟨hsome, hshort, by omega⟩
    · apply h.setLcore
      · rw [Lcore.owned_serve, howned]
      · exact hidle
      · refine ⟨hpeak, ?_, fun hnone => absurd hnone hsome, ?_⟩
        · simp only [Lcore.serve, List.length_take]
          omega
        · intro m hfill
          cases hfill

theorem Inv.cacheFlush [DecidableEq β] (h : Inv cfg pool s) (htask : (s.lcores t).task = .none)
    (cache : Option ℕ) : Inv cfg pool (s.cacheFlush t cache) := by
  have howned := Lcore.owned_of_none htask
  cases cache with
  | none => exact h
  | some size =>
      simp only [State.cacheFlush]
      split_ifs
      · exact h
      · apply h.enqueueBulk (h.idle htask)
        · rw [howned]
          exact congrArg (· + _) (add_zero _)
        · exact (h.cache t).peak
        · exact Nat.zero_le _
        · exact fun _ => rfl

/-! ## The ring returns -/

omit [Fintype τ] [DecidableEq τ] in
theorem Coupled.same {lc : Lcore β} {pc pc' : Pc β} {c c' : Call β} (h : Coupled cfg lc pc)
    (hcall : pc.call = some c) (hcall' : pc'.call = some c') (hsame : c.Same c') :
    Coupled cfg lc pc' := by
  unfold Coupled at h ⊢
  split at h
  · rw [h] at hcall
    cases hcall
  · obtain ⟨c₀, hc₀, hold⟩ := h
    rw [hcall, Option.some.injEq] at hc₀
    exact ⟨c', hcall', hold.trans (hc₀ ▸ hsame)⟩
  · obtain ⟨c₀, hc₀, hold⟩ := h
    rw [hcall, Option.some.injEq] at hc₀
    exact ⟨c', hcall', hold.trans (hc₀ ▸ hsame)⟩
  · obtain ⟨c₀, hc₀, hold⟩ := h
    rw [hcall, Option.some.injEq] at hc₀
    exact ⟨c', hcall', hold.trans (hc₀ ▸ hsame)⟩

theorem Inv.n_eq_asked (h : Inv cfg pool s) {c : Call β} {l : Ring.Locals}
    (hpc : s.ring.threads t = .storeTail c l) (hbehavior : c.behavior = .queueFixed) :
    l.n = c.n := by
  have hdecided := h.answered.threads t
  rw [hpc] at hdecided
  have hclaim : (s.ring.threads t).claim c.side = some (l.stamp, l.n.toNat) := by
    rw [hpc]
    exact if_pos rfl
  have hwithin := (h.ring.tiles c.side).within t _ _ hclaim
  rcases c.limit_cases l.entries with ⟨-, hn⟩ | ⟨-, -, hn⟩ | ⟨-, hvariable, -⟩
  · rw [hdecided.1, hn]
  · rw [hdecided.1, hn] at hwithin
    exact absurd hwithin.2.1 (Nat.lt_irrefl _)
  · rw [hbehavior] at hvariable
    cases hvariable

theorem objects_enqueueCall {objs : List β} (hlength : objs.length < 2 ^ 32) :
    Ring.objects (enqueueCall objs).objTable (enqueueCall objs).n = objs := by
  have hn : (enqueueCall objs).n.toNat = objs.length := by
    rw [enqueueCall, BitVec.toNat_ofNat]
    exact Nat.mod_eq_of_lt hlength
  apply List.ext_getElem
  · rw [Ring.length_objects, hn]
  · intro i hi hi'
    simp [Ring.objects, enqueueCall, List.getD_eq_getElem?_getD, hi']

theorem Inv.storeTail_cases (h : Inv cfg pool s) {c : Call β} {l : Ring.Locals}
    (hpc : s.ring.threads t = .storeTail c l) :
    (∃ objs, (s.lcores t).task = .put objs ∧ c.side = .prod ∧
        Ring.objects c.objTable l.n = objs) ∨
      c.side = .cons ∧
        ((∃ n, (s.lcores t).task = .fill n ∧
            l.n.toNat ≤ n + (cfg.cacheSize - (s.lcores t).cache.length)) ∨
          ∃ n, (s.lcores t).task = .get n) := by
  have hcoupled := h.coupled t
  unfold Coupled at hcoupled
  cases htask : (s.lcores t).task with
  | none =>
      rw [htask, hpc] at hcoupled
      cases hcoupled
  | put objs =>
      simp only [htask, hpc, Ring.Pc.call, Option.some.injEq, exists_eq_left'] at hcoupled
      refine Or.inl ⟨objs, rfl, hcoupled.side, ?_⟩
      rw [h.n_eq_asked hpc hcoupled.behavior, hcoupled.n, hcoupled.objTable rfl]
      exact objects_enqueueCall (h.put_length_lt htask)
  | fill n =>
      simp only [htask, hpc, Ring.Pc.call, Option.some.injEq, exists_eq_left'] at hcoupled
      refine Or.inr ⟨hcoupled.side, Or.inl ⟨n, rfl, ?_⟩⟩
      rw [h.n_eq_asked hpc hcoupled.behavior, hcoupled.n, dequeueCall, BitVec.toNat_ofNat]
      exact Nat.mod_le _ _
  | get n =>
      simp only [htask, hpc, Ring.Pc.call, Option.some.injEq, exists_eq_left'] at hcoupled
      exact Or.inr ⟨hcoupled.side, Or.inr ⟨n, rfl⟩⟩

omit [Fintype τ] in
theorem resume_of_call [DecidableEq β] {ring : Ring.State τ β} {c : Call β}
    (h : (ring.threads t).call = some c) : s.resume t ring = { s with ring } := by
  simp only [State.resume]
  split
  · rename_i hidle
    rw [hidle] at h
    cases h
  · rfl

omit [Fintype τ] in
theorem resume_of_idle [DecidableEq β] {ring : Ring.State τ β} (h : ring.threads t = .idle) :
    s.resume t ring = State.finish { s with ring } t (moved (s.ring.threads t)) := by
  simp only [State.resume, h]

theorem Inv.done (h : Inv cfg pool s) {ring : Ring.State τ β}
    (hring : Ring.Inv (fun _ => none) ring) (hanswered : Ring.Answered ring)
    (hcapacity : ring.ring.capacity = s.ring.ring.capacity)
    (hothers : ∀ u ≠ t, ring.threads u = s.ring.threads u) (hidle : ring.threads t = .idle)
    (lc : Lcore β) (htask : lc.task = .none)
    (htotal : (contents ring : Multiset β) + lc.owned = contents s.ring + (s.lcores t).owned)
    (hpeak : lc.peak ≤ cacheEntries) (hlength : lc.cache.length ≤ flushthresh cacheMaxSize)
    (hempty : cfg.defaultCache t = none → lc.cache = []) :
    Inv cfg pool (State.setLcore { s with ring } t lc) := by
  apply h.move t hring hanswered hcapacity hothers htotal
  · unfold Coupled
    rw [htask]
    exact hidle
  · refine ⟨hpeak, hlength, hempty, ?_⟩
    intro n hfill
    rw [htask] at hfill
    cases hfill

theorem Inv.refused [DecidableEq β] (h : Inv cfg pool s) {ring : Ring.State τ β} {c : Call β}
    {oldHead : BitVec 32} {stamp : ℕ} (hpc : s.ring.threads t = .loadTail c oldHead stamp)
    (hfresh : Ring.Fresh s.ring (.next t : Ring.Action τ β))
    (hn : c.limit (Ring.entries s.ring.ring oldHead c.side) = 0)
    (hring : Ring.Inv (fun _ => none) ring) (hanswered : Ring.Answered ring)
    (hcapacity : ring.ring.capacity = s.ring.ring.capacity)
    (hothers : ∀ u ≠ t, ring.threads u = s.ring.threads u) (hidle : ring.threads t = .idle)
    (hpassed : ring.passed = s.ring.passed) :
    Inv cfg pool (State.finish { s with ring } t none) := by
  have hcontents : contents ring = contents s.ring := by
    rw [contents, contents, hpassed]
  have hdone : (s.lcores t).owned = (s.lcores t).hand + (s.lcores t).cache →
      Inv cfg pool (State.setLcore { s with ring } t { s.lcores t with task := .none }) := by
    intro howned
    apply h.done hring hanswered hcapacity hothers hidle
    · rfl
    · rw [hcontents, howned, Lcore.owned_of_none rfl]
    · exact (h.cache t).peak
    · exact (h.cache t).length
    · exact (h.cache t).empty
  cases htask : (s.lcores t).task with
  | none =>
      rw [h.idle htask] at hpc
      cases hpc
  | put objs =>
      simp only [State.finish, htask]
      apply hdone
      rw [Lcore.owned, htask, h.put_empty hpc hfresh htask hn]
      exact add_zero _
  | fill n =>
      simp only [State.finish, htask]
      have howned : (s.lcores t).owned = (s.lcores t).hand + (s.lcores t).cache := by
        rw [Lcore.owned, htask]
        exact add_zero _
      -- the second call starts where the first one has left the thread idle
      have hagain : Inv cfg pool
          ((State.setLcore { s with ring } t { s.lcores t with task := .none }).ringDequeue t
            (s.lcores t) n) := by
        apply (hdone howned).ringDequeue hidle
        · rw [State.setLcore_self, Lcore.owned_of_none rfl]
        · exact (h.cache t).peak
        · exact (h.cache t).length
        · exact (h.cache t).empty
      have heq : (State.setLcore { s with ring } t { s.lcores t with task := .none }).ringDequeue t
          (s.lcores t) n = State.ringDequeue { s with ring } t (s.lcores t) n := by
        simp only [State.ringDequeue, State.setLcore, Function.update_idem]
      rwa [heq] at hagain
  | get n =>
      simp only [State.finish, htask]
      apply hdone
      rw [Lcore.owned, htask]
      exact add_zero _

theorem Inv.moved [DecidableEq β] (hcfg : cfg.cacheSize ≤ cacheMaxSize) (h : Inv cfg pool s)
    {c : Call β} {l : Ring.Locals} (hpc : s.ring.threads t = .storeTail c l)
    (hring : Ring.Inv (fun _ => none) (s.ring.pass t c l))
    (hanswered : Ring.Answered (s.ring.pass t c l))
    (hcapacity : (s.ring.pass t c l).ring.capacity = s.ring.ring.capacity)
    (hothers : ∀ u ≠ t, (s.ring.pass t c l).threads u = s.ring.threads u) :
    Inv cfg pool
      (State.finish { s with ring := s.ring.pass t c l } t
        (some (Ring.objects c.objTable l.n))) := by
  have hidle : (s.ring.pass t c l).threads t = .idle := Ring.State.setPc_self _ _ _
  have hpeak := (h.cache t).peak
  have hlength := (h.cache t).length
  rcases h.storeTail_cases hpc with ⟨objs, htask, hside, hobjs⟩ |
    ⟨hside, ⟨n, htask, hle⟩ | ⟨n, htask⟩⟩
  · simp only [State.finish, htask]
    apply h.done hring hanswered hcapacity hothers hidle
    · rfl
    · rw [contents_pass_prod h.ring hside, hobjs, Lcore.owned_of_none rfl, Lcore.owned, htask,
        ← Multiset.coe_add]
      simp only [Task.inFlight]
      abel
    · exact hpeak
    · exact hlength
    · exact (h.cache t).empty
  · have hcontents := contents_pass_cons hring hside
    have hfill := (h.cache t).fill n htask
    simp only [State.finish, htask]
    apply h.done hring hanswered hcapacity hothers hidle
    · rfl
    · rw [hcontents, Lcore.owned_serve, Lcore.owned, htask]
      simp only [Task.inFlight, ← Multiset.coe_add]
      abel
    · exact hpeak
    · simp only [Lcore.serve, List.length_take, List.length_append, Ring.length_objects]
      unfold flushthresh
      omega
    · intro hnone
      exact absurd hnone hfill.1
  · have hcontents := contents_pass_cons hring hside
    simp only [State.finish, htask]
    apply h.done hring hanswered hcapacity hothers hidle
    · rfl
    · rw [hcontents, Lcore.owned_of_none rfl, Lcore.owned, htask]
      simp only [Task.inFlight, ← Multiset.coe_add]
      abel
    · exact hpeak
    · exact hlength
    · exact (h.cache t).empty

theorem inv_next [DecidableEq β] (hcfg : cfg.cacheSize ≤ cacheMaxSize) (h : Inv cfg pool s)
    (hfresh : Ring.Fresh s.ring (.next t : Ring.Action τ β)) {ring : Ring.State τ β}
    (hnext : s.ring.next t (s.ring.threads t) = some ring) :
    Inv cfg pool (s.resume t ring) := by
  have hring := Ring.inv_next h.ring hfresh hnext
  have hanswered := Ring.answered_next h.ring h.answered hfresh hnext
  have hcapacity := Ring.capacity_next hnext
  have hothers : ∀ u ≠ t, ring.threads u = s.ring.threads u := fun u => Ring.next_others hnext
  rcases Ring.next_cases hnext with ⟨c, c', hcall, hcall', hsame, hpassed⟩ |
    ⟨c, oldHead, stamp, hpc, hn, hidle, hpassed⟩ | ⟨c, l, hpc, rfl⟩
  · rw [resume_of_call hcall']
    have hmove := h.move t hring hanswered hcapacity hothers
      (by rw [contents, contents, hpassed]) ((h.coupled t).same hcall hcall' hsame) (h.cache t)
    rwa [Function.update_eq_self] at hmove
  · rw [resume_of_idle hidle, hpc]
    exact h.refused hpc hfresh hn hring hanswered hcapacity hothers hidle hpassed
  · have hidle : (s.ring.pass t c l).threads t = .idle := Ring.State.setPc_self _ _ _
    rw [resume_of_idle hidle, hpc]
    exact h.moved hcfg hpc hring hanswered hcapacity hothers

end

end SoftwareSwitches.Mempool
