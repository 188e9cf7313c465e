import SoftwareSwitches.Ring.Create
import SoftwareSwitches.Lib.Execution
import Mathlib.Logic.Function.Basic

/-!
# Enqueueing and dequeueing on several threads

`__rte_ring_do_enqueue` and `__rte_ring_do_dequeue` with the functions of
`rte_ring_generic.h`, one access to shared memory at a time: each thread goes on by single
accesses, in any order among the threads.  Memory is sequentially consistent; the barriers
of the source are what it takes for that.

The two directions run the same code on the two sides of the ring.  A producer moves
`prod.head`, copies its objects into the slots and moves `prod.tail`; a consumer does so
with `cons.head` and `cons.tail`.
-/

namespace SoftwareSwitches.Ring

/-! ## Copying -/

def consecutive (idx i : ℕ) : ℕ → List (ℕ × ℕ)
  | 0 => []
  | k + 1 => (idx, i) :: consecutive (idx + 1) (i + 1) k

def quads (idx i : ℕ) : ℕ → List (ℕ × ℕ)
  | 0 => []
  | k + 1 =>
    (idx, i) :: (idx + 1, i + 1) :: (idx + 2, i + 2) :: (idx + 3, i + 3) ::
      quads (idx + 4) (i + 4) k

/-- `ENQUEUE_PTRS` and `DEQUEUE_PTRS`: the slots and the places in `obj_table`, in the
order in which they are copied. -/
def copies (r : RteRing) (head n : BitVec 32) : List (ℕ × ℕ) :=
  let idx := head &&& r.mask
  if idx + n < r.size then
    let quarter := n.toNat / 4
    quads idx.toNat 0 quarter ++
      -- the `switch` on `n & 0x3` falls through its cases
      consecutive (idx.toNat + 4 * quarter) (4 * quarter) (n.toNat % 4)
  else
    let first := r.size.toNat - idx.toNat
    consecutive idx.toNat 0 first ++ consecutive 0 first (n.toNat - first)

theorem consecutive_eq_map (idx i k : ℕ) :
    consecutive idx i k = (List.range k).map fun j => (idx + j, i + j) := by
  induction k generalizing idx i with
  | zero => rfl
  | succ k ih =>
      rw [consecutive, ih, List.range_succ_eq_map, List.map_cons, List.map_map]
      congr 1
      apply List.map_congr_left
      intro j _
      simp only [Function.comp_apply, Nat.succ_eq_add_one, Prod.mk.injEq]
      omega

theorem consecutive_append (idx i k m : ℕ) :
    consecutive idx i k ++ consecutive (idx + k) (i + k) m = consecutive idx i (k + m) := by
  induction k generalizing idx i with
  | zero => simp [consecutive]
  | succ k ih =>
      have hrest := ih (idx + 1) (i + 1)
      rw [show idx + 1 + k = idx + (k + 1) by omega,
        show i + 1 + k = i + (k + 1) by omega] at hrest
      rw [show k + 1 + m = (k + m) + 1 by omega, consecutive, consecutive, List.cons_append,
        hrest]

theorem quads_eq_consecutive (idx i k : ℕ) : quads idx i k = consecutive idx i (4 * k) := by
  induction k generalizing idx i with
  | zero => rfl
  | succ k ih =>
      rw [quads, ih, show 4 * (k + 1) = 4 * k + 1 + 1 + 1 + 1 by omega]
      rfl

theorem RteRing.WellFormed.toNat_and_mask {r : RteRing} (hr : r.WellFormed) (stamp : ℕ) :
    (BitVec.ofNat 32 stamp &&& r.mask).toNat = stamp % r.size.toNat := by
  obtain ⟨k, hk⟩ := hr.size
  have hne : r.size ≠ 0 := by
    intro hzero
    have hpos := Nat.two_pow_pos k
    simp [hzero] at hk
    omega
  have hdvd : 2 ^ k ∣ 2 ^ 32 := by
    apply Nat.pow_dvd_pow
    by_contra hlt
    have hle : 2 ^ 32 ≤ 2 ^ k := Nat.pow_le_pow_right (by omega) (by omega)
    have hsize := r.size.isLt
    omega
  rw [BitVec.toNat_and, hr.mask, toNat_sub_one hne, BitVec.toNat_ofNat, hk,
    Nat.and_two_pow_sub_one_eq_mod, Nat.mod_mod_of_dvd _ hdvd]

theorem RteRing.WellFormed.size_le {r : RteRing} (hr : r.WellFormed) :
    r.size.toNat ≤ 2 ^ 31 := by
  obtain ⟨k, hk⟩ := hr.size
  have hsize := r.size.isLt
  rw [hk] at hsize ⊢
  have hlt := (Nat.pow_lt_pow_iff_right (show 1 < 2 by omega)).mp hsize
  exact Nat.pow_le_pow_right (by omega) (by omega)

theorem slot_of_lt {size stamp i : ℕ} (h : stamp % size + i < size) :
    (stamp + i) % size = stamp % size + i := by
  rw [Nat.add_mod, Nat.mod_eq_of_lt (show i < size by omega)]
  exact Nat.mod_eq_of_lt h

theorem copies_eq {r : RteRing} (hr : r.WellFormed) (stamp : ℕ) {n : BitVec 32}
    (hn : n ≤ r.capacity) :
    copies r (BitVec.ofNat 32 stamp) n =
      (List.range n.toNat).map fun i => ((stamp + i) % r.size.toNat, i) := by
  have hcapacity : n.toNat < r.size.toNat :=
    lt_of_le_of_lt (BitVec.le_def.mp hn) (BitVec.lt_def.mp hr.capacity)
  have hidx := hr.toNat_and_mask stamp
  have hlt : stamp % r.size.toNat < r.size.toNat := Nat.mod_lt _ (by omega)
  have hsize := hr.size_le
  have hsum : ((BitVec.ofNat 32 stamp &&& r.mask) + n).toNat =
      stamp % r.size.toNat + n.toNat := by
    rw [BitVec.toNat_add, hidx]
    omega
  simp only [copies, BitVec.lt_def, hsum, hidx, quads_eq_consecutive]
  by_cases hwrap : stamp % r.size.toNat + n.toNat < r.size.toNat
  · have hlast := consecutive_append (stamp % r.size.toNat) 0 (4 * (n.toNat / 4)) (n.toNat % 4)
    rw [Nat.zero_add] at hlast
    rw [if_pos hwrap, hlast, show 4 * (n.toNat / 4) + n.toNat % 4 = n.toNat by omega,
      consecutive_eq_map]
    apply List.map_congr_left
    intro i hi
    have hi := List.mem_range.mp hi
    rw [slot_of_lt (by omega), Nat.zero_add]
  · rw [if_neg hwrap, consecutive_eq_map, consecutive_eq_map]
    generalize hfirst : r.size.toNat - stamp % r.size.toNat = first
    have hle : n.toNat = first + (n.toNat - first) := by omega
    conv_rhs => rw [hle, List.range_add, List.map_append, List.map_map]
    congr 1
    · apply List.map_congr_left
      intro i hi
      have hi := List.mem_range.mp hi
      rw [slot_of_lt (by omega), Nat.zero_add]
    · apply List.map_congr_left
      intro i hi
      have hi := List.mem_range.mp hi
      have hslot : (stamp + (first + i)) % r.size.toNat = i := by
        rw [Nat.add_mod, Nat.mod_eq_of_lt (show first + i < r.size.toNat by omega),
          Nat.mod_eq_sub_mod (by omega), Nat.mod_eq_of_lt (by omega)]
        omega
      rw [Function.comp_apply, hslot, Nat.zero_add]

/-! ## The machine -/

inductive Side where
  | prod
  | cons
  deriving DecidableEq, Repr

inductive Behavior where
  | queueFixed
  | queueVariable
  deriving DecidableEq, Repr

def RteRing.ht (r : RteRing) : Side → HeadTail
  | .prod => r.prod
  | .cons => r.cons

def RteRing.setHead (r : RteRing) (head : BitVec 32) : Side → RteRing
  | .prod => { r with prod := { r.prod with head } }
  | .cons => { r with cons := { r.cons with head } }

def RteRing.setTail (r : RteRing) (tail : BitVec 32) : Side → RteRing
  | .prod => { r with prod := { r.prod with tail } }
  | .cons => { r with cons := { r.cons with tail } }

@[simp] theorem RteRing.setHead_size (r : RteRing) (x : BitVec 32) (sd : Side) :
    (r.setHead x sd).size = r.size := by
  cases sd <;> rfl

@[simp] theorem RteRing.setHead_capacity (r : RteRing) (x : BitVec 32) (sd : Side) :
    (r.setHead x sd).capacity = r.capacity := by
  cases sd <;> rfl

@[simp] theorem RteRing.setTail_size (r : RteRing) (x : BitVec 32) (sd : Side) :
    (r.setTail x sd).size = r.size := by
  cases sd <;> rfl

@[simp] theorem RteRing.setTail_capacity (r : RteRing) (x : BitVec 32) (sd : Side) :
    (r.setTail x sd).capacity = r.capacity := by
  cases sd <;> rfl

theorem RteRing.setHead_wellFormed {r : RteRing} (h : r.WellFormed) (x : BitVec 32)
    (sd : Side) : (r.setHead x sd).WellFormed := by
  cases sd <;> exact ⟨h.size, h.mask, h.capacity⟩

theorem RteRing.setTail_wellFormed {r : RteRing} (h : r.WellFormed) (x : BitVec 32)
    (sd : Side) : (r.setTail x sd).WellFormed := by
  cases sd <;> exact ⟨h.size, h.mask, h.capacity⟩

@[simp] theorem RteRing.setHead_head (r : RteRing) (x : BitVec 32) (sd sd' : Side) :
    ((r.setHead x sd).ht sd').head = if sd' = sd then x else (r.ht sd').head := by
  cases sd <;> cases sd' <;> rfl

@[simp] theorem RteRing.setHead_tail (r : RteRing) (x : BitVec 32) (sd sd' : Side) :
    ((r.setHead x sd).ht sd').tail = (r.ht sd').tail := by
  cases sd <;> cases sd' <;> rfl

@[simp] theorem RteRing.setTail_head (r : RteRing) (x : BitVec 32) (sd sd' : Side) :
    ((r.setTail x sd).ht sd').head = (r.ht sd').head := by
  cases sd <;> cases sd' <;> rfl

@[simp] theorem RteRing.setTail_tail (r : RteRing) (x : BitVec 32) (sd sd' : Side) :
    ((r.setTail x sd).ht sd').tail = if sd' = sd then x else (r.ht sd').tail := by
  cases sd <;> cases sd' <;> rfl

/-- `free_entries` of `__rte_ring_move_prod_head` and `entries` of
`__rte_ring_move_cons_head`, with the tail of the other side as it is now. -/
def entries (r : RteRing) (oldHead : BitVec 32) : Side → BitVec 32
  | .prod => r.capacity + r.cons.tail - oldHead
  | .cons => r.prod.tail - oldHead

variable {τ α : Type}

/-- The arguments of a call.  `single` is `is_sp` or `is_sc`. -/
structure Call (α : Type) where
  side : Side
  objTable : ℕ → α
  n : BitVec 32
  behavior : Behavior
  single : Bool

def Call.limit (c : Call α) (entries : BitVec 32) : BitVec 32 :=
  if entries < c.n then
    match c.behavior with
    | .queueFixed => 0
    | .queueVariable => entries
  else c.n

/-- The local variables of a call that has read the head and the tail.  The rest is history:
how many places had been taken on this side when it read the head, and how many were left
when it read the tail. -/
structure Locals where
  oldHead : BitVec 32
  entries : BitVec 32
  n : BitVec 32
  stamp : ℕ
  room : ℕ

def Locals.newHead (l : Locals) : BitVec 32 :=
  l.oldHead + l.n

inductive Pc (α : Type) where
  | idle
  | loadHead (c : Call α)
  | loadTail (c : Call α) (oldHead : BitVec 32) (stamp : ℕ)
  | moveHead (c : Call α) (l : Locals)
  | copy (c : Call α) (l : Locals) (todo : List (ℕ × ℕ))
  | storeTail (c : Call α) (l : Locals)

/-- What a call returned, and `*free_space` or `*available`.  `room` is history: the places
there were on this side when the call decided how many to go for. -/
structure Return where
  side : Side
  behavior : Behavior
  asked : BitVec 32
  n : BitVec 32
  left : BitVec 32
  room : ℕ
  deriving DecidableEq, Repr

/-- The ring, its slots and the threads.  The rest is history that no step reads: how many
places have been taken on each side, the objects in the order in which the tail of a side
passed them, and what the calls returned. -/
structure State (τ α : Type) where
  ring : RteRing
  slots : ℕ → α
  threads : τ → Pc α
  taken : Side → ℕ
  passed : Side → List α
  returns : List Return

def objects (objTable : ℕ → α) (n : BitVec 32) : List α :=
  (List.range n.toNat).map objTable

def State.bound (s : State τ α) : Side → ℕ
  | .prod => (s.passed .cons).length + s.ring.capacity.toNat
  | .cons => (s.passed .prod).length

def State.room (s : State τ α) (sd : Side) : ℕ :=
  s.bound sd - s.taken sd

variable [DecidableEq τ]

def State.setPc (s : State τ α) (t : τ) (pc : Pc α) : State τ α :=
  { s with threads := Function.update s.threads t pc }

@[simp] theorem State.setPc_self (s : State τ α) (t : τ) (pc : Pc α) :
    (s.setPc t pc).threads t = pc :=
  Function.update_self _ _ _

theorem State.setPc_of_ne {s : State τ α} {t u : τ} {pc : Pc α} (h : u ≠ t) :
    (s.setPc t pc).threads u = s.threads u :=
  Function.update_of_ne h _ _

def State.ret (s : State τ α) (t : τ) (c : Call α) (entries n : BitVec 32) (room : ℕ) :
    State τ α :=
  { s.setPc t .idle with
    returns := s.returns ++ [⟨c.side, c.behavior, c.n, n, entries - n, room⟩] }

def State.take (s : State τ α) (t : τ) (c : Call α) (l : Locals) : State τ α :=
  { s.setPc t (.copy c l (copies s.ring l.oldHead l.n)) with
    ring := s.ring.setHead l.newHead c.side
    taken := Function.update s.taken c.side (s.taken c.side + l.n.toNat) }

def State.copy (s : State τ α) (t : τ) (c : Call α) (l : Locals) (idx i : ℕ)
    (todo : List (ℕ × ℕ)) : State τ α :=
  match c.side with
  | .prod =>
    { s.setPc t (.copy c l todo) with slots := Function.update s.slots idx (c.objTable i) }
  | .cons =>
    s.setPc t (.copy { c with objTable := Function.update c.objTable i (s.slots idx) } l todo)

theorem State.copy_prod {s : State τ α} {t : τ} {c : Call α} {l : Locals} {idx i : ℕ}
    {todo : List (ℕ × ℕ)} (h : c.side = .prod) :
    s.copy t c l idx i todo =
      { s.setPc t (.copy c l todo) with
        slots := Function.update s.slots idx (c.objTable i) } := by
  obtain ⟨side, objTable, n, behavior, single⟩ := c
  subst h
  rfl

theorem State.copy_cons {s : State τ α} {t : τ} {c : Call α} {l : Locals} {idx i : ℕ}
    {todo : List (ℕ × ℕ)} (h : c.side = .cons) :
    s.copy t c l idx i todo =
      s.setPc t
        (.copy { c with objTable := Function.update c.objTable i (s.slots idx) } l todo) := by
  obtain ⟨side, objTable, n, behavior, single⟩ := c
  subst h
  rfl

theorem State.copy_frame (s : State τ α) (t : τ) (c : Call α) (l : Locals) (idx i : ℕ)
    (todo : List (ℕ × ℕ)) :
    (∃ c', c'.side = c.side ∧
      (s.copy t c l idx i todo).threads = (s.setPc t (.copy c' l todo)).threads) ∧
      (s.copy t c l idx i todo).ring = s.ring ∧ (s.copy t c l idx i todo).taken = s.taken ∧
      (s.copy t c l idx i todo).passed = s.passed := by
  cases hside : c.side with
  | prod =>
      rw [State.copy_prod hside]
      exact ⟨⟨c, hside, rfl⟩, rfl, rfl, rfl⟩
  | cons =>
      rw [State.copy_cons hside]
      exact ⟨⟨{ c with objTable := Function.update c.objTable i (s.slots idx) }, hside, rfl⟩, rfl,
        rfl, rfl⟩

def State.pass (s : State τ α) (t : τ) (c : Call α) (l : Locals) : State τ α :=
  { s.ret t c l.entries l.n l.room with
    ring := s.ring.setTail l.newHead c.side
    passed := Function.update s.passed c.side (s.passed c.side ++ objects c.objTable l.n) }

def State.next (s : State τ α) (t : τ) : Pc α → Option (State τ α)
  | .idle => none
  | .loadHead c =>
    some (s.setPc t (.loadTail c (s.ring.ht c.side).head (s.taken c.side)))
  | .loadTail c oldHead stamp =>
    let entries := entries s.ring oldHead c.side
    let n := c.limit entries
    if n = 0 then some (s.ret t c entries 0 (s.room c.side))
    else some (s.setPc t (.moveHead c ⟨oldHead, entries, n, stamp, s.room c.side⟩))
  | .moveHead c l =>
    -- a single producer or consumer stores, the others compare and set
    if c.single ∨ (s.ring.ht c.side).head = l.oldHead then some (s.take t c l)
    else some (s.setPc t (.loadHead c))
  | .copy c l ((idx, i) :: todo) => some (s.copy t c l idx i todo)
  | .copy c l [] =>
    -- `while (ht->tail != old_val) rte_pause();`
    if c.single ∨ (s.ring.ht c.side).tail = l.oldHead then some (s.setPc t (.storeTail c l))
    else some s
  | .storeTail c l => some (s.pass t c l)

inductive Action (τ α : Type) where
  | call (t : τ) (c : Call α)
  | next (t : τ)

def step (s : State τ α) : Action τ α → Option (State τ α)
  | .call t c =>
    match s.threads t with
    | .idle => some (s.setPc t (.loadHead c))
    | _ => none
  | .next t => s.next t (s.threads t)

end SoftwareSwitches.Ring
