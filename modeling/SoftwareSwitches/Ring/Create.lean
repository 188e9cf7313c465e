import SoftwareSwitches.Lib.BitFill
import Mathlib.Tactic.Ring
import Mathlib.Data.BitVec

/-!
# Creating a ring

`rte_ring_create` takes the size of a ring from its caller.  The packet pools of the DPDK
programs keep their free buffers in such a ring.
-/

namespace SoftwareSwitches.Ring

open SoftwareSwitches.Lib.BitFill

def rteCombine32ms1b (x : BitVec 32) : BitVec 32 :=
  let x := x ||| x >>> 1
  let x := x ||| x >>> 2
  let x := x ||| x >>> 4
  let x := x ||| x >>> 8
  x ||| x >>> 16

def rteAlign32pow2 (x : BitVec 32) : BitVec 32 :=
  rteCombine32ms1b (x - 1) + 1

def powerOf2 (x : BitVec 32) : Bool :=
  ((x - 1) &&& x) == 0

structure HeadTail where
  head : BitVec 32
  tail : BitVec 32
  single : Bool
  deriving DecidableEq, Repr

/-- `struct rte_ring` without its padding and the pointer to its memory zone. -/
structure RteRing where
  name : List UInt8
  flags : BitVec 32
  size : BitVec 32
  mask : BitVec 32
  capacity : BitVec 32
  prod : HeadTail
  cons : HeadTail
  deriving DecidableEq, Repr

/-- The slots are `0`, ..., `size - 1`, a power of two of them, and not all are used. -/
structure RteRing.WellFormed (r : RteRing) : Prop where
  size : r.size.toNat.isPowerOfTwo
  mask : r.mask = r.size - 1
  capacity : r.capacity < r.size

def ringFSpEnq : BitVec 32 := 0x0001
def ringFScDeq : BitVec 32 := 0x0002
def ringFExactSz : BitVec 32 := 0x0004
def rteRingSzMask : BitVec 32 := 0x7fffffff

def memzoneNamesize : ℕ := 32

def einval : ℤ := 22
def enomem : ℤ := 12
def enametoolong : ℤ := 36

def isSet (flags flag : BitVec 32) : Bool :=
  (flags &&& flag) != 0

/-- `sizeof(struct rte_ring)`: six cache lines. -/
def sizeofRing : ℕ := 384

/-- `rte_ring_get_memsize`; the sum is rounded up to whole cache lines. -/
def rteRingGetMemsize (count : BitVec 32) : Except ℤ ℕ :=
  if !powerOf2 count || rteRingSzMask < count then
    .error (-einval)
  else
    .ok ((sizeofRing + 8 * count.toNat + 63) / 64 * 64)

def rteRingInit (name : List UInt8) (count flags : BitVec 32) : ℤ × RteRing :=
  let r : RteRing :=
    { name := name.take (memzoneNamesize - 1), flags := 0, size := 0, mask := 0, capacity := 0
      prod := ⟨0, 0, false⟩, cons := ⟨0, 0, false⟩ }
  if memzoneNamesize ≤ name.length then
    (-enametoolong, r)
  else
    let r := { r with
      flags
      prod := { r.prod with single := isSet flags ringFSpEnq }
      cons := { r.cons with single := isSet flags ringFScDeq } }
    if isSet flags ringFExactSz then
      let size := rteAlign32pow2 (count + 1)
      (0, { r with size, mask := size - 1, capacity := count })
    else if !powerOf2 count || rteRingSzMask < count then
      (-einval, r)
    else
      (0, { r with size := count, mask := count - 1, capacity := count - 1 })

def roundedCount (count flags : BitVec 32) : BitVec 32 :=
  if isSet flags ringFExactSz then rteAlign32pow2 (count + 1) else count

/-- `rte_ring_create`, with the ring and the size of its memory zone or the `rte_errno` it
sets.  `zmalloc` is whether the list entry could be allocated; `reserve` is
`rte_memzone_reserve_aligned`.  The result of `rte_ring_init` is not looked at. -/
def rteRingCreate (zmalloc : Bool) (reserve : ℕ → Except ℤ Unit) (name : List UInt8)
    (count flags : BitVec 32) : Except ℤ (RteRing × ℕ) :=
  match rteRingGetMemsize (roundedCount count flags) with
  | .error e => .error e
  | .ok ringSize =>
      if memzoneNamesize ≤ 3 + name.length then
        .error enametoolong
      else if !zmalloc then
        .error enomem
      else
        match reserve ringSize with
        | .error e => .error e
        | .ok () => .ok ((rteRingInit name count flags).2, ringSize)

/-! ## Powers of two -/

theorem toNat_rteCombine32ms1b (x : BitVec 32) :
    (rteCombine32ms1b x).toNat = 2 ^ x.toNat.size - 1 := by
  have hfilled := (filled_self x.toNat).double.double.double.double.double
  rw [← hfilled.eq_two_pow (w := 32) x.isLt]
  simp [rteCombine32ms1b]

theorem toNat_rteAlign32pow2_add_one (count : BitVec 32) :
    (rteAlign32pow2 (count + 1)).toNat = 2 ^ count.toNat.size % 2 ^ 32 := by
  have hpos := Nat.two_pow_pos count.toNat.size
  have hone : (1 : BitVec 32).toNat = 1 := rfl
  rw [rteAlign32pow2, BitVec.add_sub_cancel, BitVec.toNat_add, toNat_rteCombine32ms1b, hone]
  rw [Nat.sub_add_cancel hpos]

theorem rteAlign32pow2_of_lt {count : BitVec 32} (h : count.toNat < 2 ^ 31) :
    (rteAlign32pow2 (count + 1)).toNat = 2 ^ count.toNat.size := by
  have hsize : count.toNat.size ≤ 31 := Nat.size_le.mpr h
  rw [toNat_rteAlign32pow2_add_one]
  apply Nat.mod_eq_of_lt
  exact Nat.pow_lt_pow_right (by omega) (by omega)

theorem rteAlign32pow2_of_le {count : BitVec 32} (h : 2 ^ 31 ≤ count.toNat) :
    rteAlign32pow2 (count + 1) = 0 := by
  have hsize : count.toNat.size = 32 := by
    apply le_antisymm
    · exact Nat.size_le.mpr count.isLt
    · exact Nat.lt_size.mpr h
  apply BitVec.eq_of_toNat_eq
  rw [toNat_rteAlign32pow2_add_one, hsize]
  rfl

theorem toNat_sub_one {x : BitVec 32} (h : x ≠ 0) : (x - 1).toNat = x.toNat - 1 := by
  have hpos : x.toNat ≠ 0 := by
    intro hzero
    exact h (BitVec.eq_of_toNat_eq hzero)
  have hlt := x.isLt
  have hone : (1 : BitVec 32).toNat = 1 := rfl
  rw [BitVec.toNat_sub, hone]
  omega

/-- Zero passes for a power of two. -/
theorem powerOf2_iff (x : BitVec 32) :
    powerOf2 x = true ↔ x = 0 ∨ x.toNat.isPowerOfTwo := by
  by_cases hx : x = 0
  · simp [hx, powerOf2]
  · have hne : x.toNat ≠ 0 := by
      intro hzero
      exact hx (BitVec.eq_of_toNat_eq hzero)
    rw [powerOf2, beq_iff_eq, ← BitVec.toNat_inj, BitVec.toNat_and, toNat_sub_one hx,
      Nat.and_comm]
    simp only [hx, false_or]
    exact Nat.and_sub_one_eq_zero_iff_isPowerOfTwo hne

/-! ## The rings that are created -/

theorem rteRingGetMemsize_eq_ok {count : BitVec 32} {bytes : ℕ}
    (h : rteRingGetMemsize count = .ok bytes) :
    powerOf2 count = true ∧ count.toNat < 2 ^ 31 ∧
      sizeofRing + 8 * count.toNat ≤ bytes := by
  unfold rteRingGetMemsize at h
  split_ifs at h with hcheck
  simp only [Bool.or_eq_true, Bool.not_eq_true', decide_eq_true_eq, not_or,
    Bool.not_eq_false] at hcheck
  have hle : count.toNat ≤ rteRingSzMask.toNat := BitVec.le_def.mp (BitVec.not_lt.mp hcheck.2)
  have hmask : rteRingSzMask.toNat = 2 ^ 31 - 1 := rfl
  cases h
  refine ⟨hcheck.1, by omega, by omega⟩

theorem rteRingCreate_eq_ok {zmalloc : Bool} {reserve : ℕ → Except ℤ Unit} {name : List UInt8}
    {count flags : BitVec 32} {r : RteRing} {bytes : ℕ}
    (h : rteRingCreate zmalloc reserve name count flags = .ok (r, bytes)) :
    rteRingGetMemsize (roundedCount count flags) = .ok bytes ∧
      3 + name.length < memzoneNamesize ∧ (rteRingInit name count flags).2 = r := by
  unfold rteRingCreate at h
  split at h
  · cases h
  · rename_i ringSize hsize
    split_ifs at h with hname hmalloc
    split at h
    · cases h
    · cases h
      exact ⟨hsize, by omega, rfl⟩

theorem rteRingInit_of_size {name : List UInt8} {count flags : BitVec 32} {bytes : ℕ}
    (hname : name.length < memzoneNamesize)
    (hsize : rteRingGetMemsize (roundedCount count flags) = .ok bytes) :
    (rteRingInit name count flags).1 = 0 := by
  unfold rteRingInit
  rw [if_neg (by omega)]
  by_cases hexact : isSet flags ringFExactSz
  · simp [hexact]
  · simp only [hexact, Bool.false_eq_true, if_false]
    rw [if_neg]
    intro hcheck
    simp only [roundedCount, hexact, Bool.false_eq_true, if_false, rteRingGetMemsize, hcheck,
      if_true] at hsize
    cases hsize

theorem rteRingInit_sizes {name : List UInt8} {count flags : BitVec 32}
    (h : (rteRingInit name count flags).1 = 0) :
    (rteRingInit name count flags).2.size = roundedCount count flags ∧
      (rteRingInit name count flags).2.mask = roundedCount count flags - 1 ∧
      (rteRingInit name count flags).2.capacity =
        if isSet flags ringFExactSz then count else count - 1 := by
  unfold rteRingInit at h ⊢
  by_cases hname : memzoneNamesize ≤ name.length
  · rw [if_pos hname] at h
    cases h
  · by_cases hexact : isSet flags ringFExactSz
    · simp [hname, hexact, roundedCount]
    · by_cases hcheck : (!powerOf2 count || rteRingSzMask < count) = true
      · simp only [hname, hexact, hcheck, if_true, if_false, Bool.false_eq_true] at h
        cases h
      · simp only [hname, hexact, hcheck, if_false, Bool.false_eq_true, roundedCount, and_self]

theorem wellFormed_exact_iff {r : RteRing} {count : BitVec 32}
    (hsize : r.size = rteAlign32pow2 (count + 1)) (hmask : r.mask = r.size - 1)
    (hcapacity : r.capacity = count) : r.WellFormed ↔ count.toNat < 2 ^ 31 := by
  constructor
  · intro hr
    by_contra hle
    have hpow := hr.size
    rw [hsize, rteAlign32pow2_of_le (by omega)] at hpow
    exact Nat.not_isPowerOfTwo_zero hpow
  · intro hlt
    have hpow := rteAlign32pow2_of_lt hlt
    refine ⟨?_, hmask, ?_⟩
    · rw [hsize, hpow]
      exact ⟨_, rfl⟩
    · rw [hcapacity, hsize, BitVec.lt_def, hpow]
      exact Nat.lt_size_self _

theorem wellFormed_count_iff {r : RteRing} {count : BitVec 32} (hsize : r.size = count)
    (hpow : powerOf2 count = true) (hmask : r.mask = r.size - 1)
    (hcapacity : r.capacity = count - 1) : r.WellFormed ↔ count ≠ 0 := by
  constructor
  · intro hr hzero
    have hpos := hr.size
    rw [hsize, hzero] at hpos
    exact Nat.not_isPowerOfTwo_zero hpos
  · intro hne
    have hpow' := ((powerOf2_iff count).mp hpow).resolve_left hne
    refine ⟨?_, hmask, ?_⟩
    · rw [hsize]
      exact hpow'
    · have hpos := Nat.pos_of_isPowerOfTwo hpow'
      rw [hcapacity, hsize, BitVec.lt_def, toNat_sub_one hne]
      omega

/-- `rte_ring_create` is right not to look at the result of `rte_ring_init`, but its check
of the size lets two kinds of counts through that leave no usable ring: zero, and exact
counts so large that the next power of two wraps to zero.  All other rings it returns are
well formed, with the capacity asked for and all slots inside their memory zone. -/
theorem rteRingCreate_wellFormed_iff (zmalloc : Bool) (reserve : ℕ → Except ℤ Unit)
    (name : List UInt8) (count flags : BitVec 32) (r : RteRing) (bytes : ℕ)
    (h : rteRingCreate zmalloc reserve name count flags = .ok (r, bytes)) :
    rteRingInit name count flags = (0, r) ∧
      sizeofRing + 8 * r.size.toNat ≤ bytes ∧
      (r.WellFormed ↔ if isSet flags ringFExactSz then count.toNat < 2 ^ 31 else count ≠ 0) ∧
      r.capacity = if isSet flags ringFExactSz then count else count - 1 := by
  obtain ⟨hbytes, hname, hring⟩ := rteRingCreate_eq_ok h
  have hret := rteRingInit_of_size (show name.length < memzoneNamesize by omega) hbytes
  obtain ⟨hsize, hmask, hcapacity⟩ := rteRingInit_sizes hret
  obtain ⟨hpow, -, hroom⟩ := rteRingGetMemsize_eq_ok hbytes
  rw [hring] at hsize hmask hcapacity
  refine ⟨Prod.ext hret hring, by rwa [hsize], ?_, hcapacity⟩
  by_cases hexact : isSet flags ringFExactSz
  · simp only [hexact, if_true, roundedCount] at hsize hmask hcapacity ⊢
    exact wellFormed_exact_iff hsize (by rw [hmask, hsize]) hcapacity
  · simp only [hexact, Bool.false_eq_true, if_false, roundedCount] at hsize hmask hcapacity hpow ⊢
    exact wellFormed_count_iff hsize hpow (by rw [hmask, hsize]) hcapacity

theorem rteRingCreate_wellFormed_iff_zero :
    ∃ r, rteRingCreate true (fun _ => .ok ()) [] 0 0 = .ok (r, 384) ∧
      r.capacity.toNat = 2 ^ 32 - 1 ∧ ¬r.WellFormed := by
  refine ⟨_, rfl, rfl, ?_⟩
  obtain ⟨-, -, hiff, -⟩ := rteRingCreate_wellFormed_iff true (fun _ => .ok ()) [] 0 0 _ 384 rfl
  rw [hiff]
  decide

end SoftwareSwitches.Ring
