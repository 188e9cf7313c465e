import SoftwareSwitches.Ring.Runs
import Mathlib.Data.Multiset.AddSub

/-!
# Packet pools

`rte_mempool` keeps its free objects in a ring and lets each lcore keep some of them in a
cache of its own, so that most calls do not touch the ring.  FloWatcher-DPDK receives into
objects of such a pool and gives each of them back with `rte_pktmbuf_free`.

The ring is used by `rte_ring_mp_enqueue_bulk` and `rte_ring_mc_dequeue_bulk`, one access at
a time as before; what an lcore does to its own cache is seen by nobody else and happens in
one step.
-/

namespace SoftwareSwitches.Mempool

open SoftwareSwitches.Ring (Side Behavior Call Pc)

variable {τ β : Type}

def cacheMaxSize : ℕ := 512

/-- The entries of `objs` in `struct rte_mempool_cache`. -/
def cacheEntries : ℕ := cacheMaxSize * 3

/-- `CALC_CACHE_FLUSHTHRESH`: one and a half times the size, rounded down. -/
def flushthresh (size : ℕ) : ℕ := size * 3 / 2

/-- The threads that use a pool; `eal` are the lcores, which have a cache. -/
structure Config (τ : Type) where
  cacheSize : ℕ
  eal : τ → Bool

def Config.accepted (cfg : Config τ) (n : ℕ) : Bool :=
  n ≠ 0 && cfg.cacheSize ≤ cacheMaxSize && flushthresh cfg.cacheSize ≤ n

def Config.defaultCache (cfg : Config τ) (t : τ) : Option ℕ :=
  if cfg.cacheSize = 0 then none
  else if !cfg.eal t then none
  else some cfg.cacheSize

inductive Task (β : Type) where
  | none
  /-- objects on their way into the ring -/
  | put (objs : List β)
  /-- a refill of the cache, out of which `n` objects are to be taken -/
  | fill (n : ℕ)
  | get (n : ℕ)
  deriving DecidableEq, Repr

/-- `cache` is `objs[0]`, ..., `objs[len - 1]`.  `hand` is what the application has got from
the pool and not given back, `peak` the number of entries of `objs` ever written. -/
structure Lcore (β : Type) where
  cache : List β
  hand : Multiset β
  task : Task β
  peak : ℕ

structure State (τ β : Type) where
  ring : Ring.State τ β
  lcores : τ → Lcore β

section

variable [DecidableEq τ]

def State.setLcore (s : State τ β) (t : τ) (lc : Lcore β) : State τ β :=
  { s with lcores := Function.update s.lcores t lc }

@[simp] theorem State.setLcore_self (s : State τ β) (t : τ) (lc : Lcore β) :
    (s.setLcore t lc).lcores t = lc :=
  Function.update_self _ _ _

def State.issue (s : State τ β) (t : τ) (c : Call β) : State τ β :=
  { s with ring := s.ring.setPc t (.loadHead c) }

def dequeueCall [Inhabited β] (n : ℕ) : Call β :=
  { side := .cons
    objTable := fun _ => default
    n := BitVec.ofNat 32 n
    behavior := .queueFixed
    single := false }

def enqueueCall [Inhabited β] (objs : List β) : Call β :=
  { side := .prod
    objTable := fun i => objs.getD i default
    n := BitVec.ofNat 32 objs.length
    behavior := .queueFixed
    single := false }

variable [Inhabited β]

/-- `rte_mempool_ops_enqueue_bulk` of objects that `lc` is rid of. -/
def State.enqueueBulk (s : State τ β) (t : τ) (lc : Lcore β) (objs : List β) : State τ β :=
  (s.setLcore t { lc with task := .put objs }).issue t (enqueueCall objs)

/-- `ring_dequeue:` of `__mempool_generic_get`. -/
def State.ringDequeue (s : State τ β) (t : τ) (lc : Lcore β) (n : ℕ) : State τ β :=
  (s.setLcore t { lc with task := .get n }).issue t (dequeueCall n)

def Lcore.serve (lc : Lcore β) (n : ℕ) : Lcore β :=
  { lc with
    cache := lc.cache.take (lc.cache.length - n)
    hand := lc.hand + lc.cache.drop (lc.cache.length - n)
    task := .none }

variable [DecidableEq β]

def State.genericPut (s : State τ β) (t : τ) (objs : List β) (cache : Option ℕ) : State τ β :=
  let lc := s.lcores t
  let lc := { lc with hand := lc.hand - objs }
  match cache with
  | none => s.enqueueBulk t lc objs
  | some size =>
    if cacheMaxSize < objs.length then s.enqueueBulk t lc objs
    else
      let cache := lc.cache ++ objs
      let lc := { lc with cache, peak := max lc.peak cache.length }
      if flushthresh size ≤ cache.length then
        s.enqueueBulk t { lc with cache := cache.take size } (cache.drop size)
      else s.setLcore t lc

/-- `__mempool_generic_get` up to its first call of the ring. -/
def State.genericGet (s : State τ β) (t : τ) (n : ℕ) (cache : Option ℕ) : State τ β :=
  let lc := s.lcores t
  match cache with
  | none => s.ringDequeue t lc n
  | some size =>
    if size ≤ n then s.ringDequeue t lc n
    else if lc.cache.length < n then
      let req := n + (size - lc.cache.length)
      (s.setLcore t
        { lc with task := .fill n, peak := max lc.peak (lc.cache.length + req) }).issue t
        (dequeueCall req)
    else s.setLcore t (lc.serve n)

def State.cacheFlush (s : State τ β) (t : τ) (cache : Option ℕ) : State τ β :=
  let lc := s.lcores t
  match cache with
  | none => s
  | some _ => if lc.cache = [] then s else s.enqueueBulk t { lc with cache := [] } lc.cache

/-- The ring has done what the thread was waiting for: `objs` are the objects it was given,
`none` if the ring returned an error.  Putting takes no notice of an error. -/
def State.finish (s : State τ β) (t : τ) (objs : Option (List β)) : State τ β :=
  let lc := s.lcores t
  match lc.task with
  | .none => s
  | .put _ => s.setLcore t { lc with task := .none }
  | .fill n =>
    match objs with
    | some objs => s.setLcore t ({ lc with cache := lc.cache ++ objs }.serve n)
    | none => s.ringDequeue t lc n
  | .get _ =>
    match objs with
    | some objs => s.setLcore t { lc with hand := lc.hand + objs, task := .none }
    | none => s.setLcore t { lc with task := .none }

end

def moved : Pc β → Option (List β)
  | .storeTail c l => some (Ring.objects c.objTable l.n)
  | _ => none

inductive Action (τ β : Type) where
  /-- `rte_mempool_put_bulk` -/
  | put (t : τ) (objs : List β)
  /-- `rte_mempool_get_bulk` -/
  | get (t : τ) (n : ℕ)
  /-- an object of new memory is added to the pool, as by `rte_mempool_populate_default` -/
  | add (t : τ) (obj : β)
  /-- `rte_mempool_cache_flush` of the default cache -/
  | flush (t : τ)
  /-- the next access of a thread to the ring -/
  | next (t : τ)

variable [DecidableEq τ] [DecidableEq β] [Inhabited β]

def State.resume (s : State τ β) (t : τ) (ring : Ring.State τ β) : State τ β :=
  let s' := { s with ring }
  match ring.threads t with
  | .idle => s'.finish t (moved (s.ring.threads t))
  | _ => s'

/-- A thread makes one call at a time, and gives back only what it has. -/
def step (cfg : Config τ) (s : State τ β) : Action τ β → Option (State τ β)
  | .put t objs =>
    match (s.lcores t).task with
    | .none =>
      if (objs : Multiset β) ≤ (s.lcores t).hand then
        some (s.genericPut t objs (cfg.defaultCache t))
      else none
    | _ => none
  | .get t n =>
    match (s.lcores t).task with
    | .none => if n < 2 ^ 32 then some (s.genericGet t n (cfg.defaultCache t)) else none
    | _ => none
  | .add t obj =>
    match (s.lcores t).task with
    | .none =>
      if obj ∈ (s.lcores t).hand then
        some (s.enqueueBulk t
          { s.lcores t with hand := (s.lcores t).hand - ([obj] : List β) } [obj])
      else none
    | _ => none
  | .flush t =>
    match (s.lcores t).task with
    | .none => some (s.cacheFlush t (cfg.defaultCache t))
    | _ => none
  | .next t => (s.ring.next t (s.ring.threads t)).map (s.resume t)

end SoftwareSwitches.Mempool
