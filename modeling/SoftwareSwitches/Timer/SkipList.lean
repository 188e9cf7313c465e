import SoftwareSwitches.Lib.SkipList
import Mathlib.Data.Fintype.Card
import Mathlib.Tactic.Ring

/-!
# The list of pending timers

Each lcore keeps its pending timers in a skip list: every timer has an array of
pointers `sl_next`, one for each level, and `pending_head` is a dummy timer in front.
The lists are followed pointer by pointer, as the code does it; there are finitely
many timers, and their number bounds every walk.
-/

namespace SoftwareSwitches.Timer

open Lib.LinkedList Lib.SkipList

def maxSkiplistDepth : ℕ := 10

/-- The timers' pointers and expiry times with the list fields of `struct priv_timer`.
The node `none` is `pending_head`; a pointer is `none` for `NULL`. -/
structure SkipList (T : Type*) where
  slNext : Option T → ℕ → Option T
  expire : T → ℕ
  headExpire : ℕ
  currSkiplistDepth : ℕ

variable {T : Type*}

def SkipList.level (m : SkipList T) (i : ℕ) : Option T → Option T :=
  fun n => m.slNext n i

/-- `priv_timer` is static. -/
def SkipList.empty (expire : T → ℕ) : SkipList T := ⟨fun _ _ => none, expire, 0, 0⟩

section Code

variable [Fintype T] [DecidableEq T]

def timerGetPrevEntries (m : SkipList T) (timeVal lvl : ℕ) : Option T :=
  search some m.level (fun t => m.expire t ≤ timeVal) (Fintype.card T) none
    m.currSkiplistDepth (m.currSkiplistDepth - lvl)

/-- `tim->expire - 1` is computed in a `uint64_t`. -/
def timerGetPrevEntriesForNode (m : SkipList T) (tim : T) (i : ℕ) : Option T :=
  advance some (m.level i) (fun t => t ≠ tim ∧ m.expire t ≤ m.expire tim) (Fintype.card T)
    (timerGetPrevEntries m ((m.expire tim + 2 ^ 64 - 1) % 2 ^ 64) i)

def rteBsf32 (v : ℕ) : ℕ := ((List.range 32).find? v.testBit).getD 0

def timerGetSkiplistLevel (rand currDepth : ℕ) : ℕ :=
  let rand := rand &&& (2 ^ 32 - 2)
  let level := if rand = 0 then maxSkiplistDepth else (rteBsf32 rand - 1) / 2
  let level := if currDepth < level then currDepth else level
  if maxSkiplistDepth ≤ level then maxSkiplistDepth - 1 else level

def timerAdd (m : SkipList T) (tim : T) (rand : ℕ) : SkipList T :=
  let timLevel := timerGetSkiplistLevel rand m.currSkiplistDepth
  let slNext := fun n i =>
    if i ≤ timLevel then
      insertAfter some (m.level i) (timerGetPrevEntries m (m.expire tim) i) tim n
    else m.slNext n i
  { m with
    slNext := slNext
    currSkiplistDepth :=
      if timLevel = m.currSkiplistDepth then m.currSkiplistDepth + 1 else m.currSkiplistDepth
    headExpire := ((slNext none 0).map m.expire).getD m.headExpire }

/-- The levels from the top whose list is empty are given up. -/
def lowerDepth (slNext : Option T → ℕ → Option T) : ℕ → ℕ
  | 0 => 0
  | depth + 1 => if slNext none depth = none then lowerDepth slNext depth else depth + 1

def timerDel (m : SkipList T) (tim : T) : SkipList T :=
  let slNext := fun n i =>
    let prev := timerGetPrevEntriesForNode m tim i
    if i < m.currSkiplistDepth ∧ m.slNext prev i = some tim then
      removeAfter some (m.level i) prev tim n
    else m.slNext n i
  { m with
    headExpire :=
      if m.slNext none 0 = some tim then ((m.slNext (some tim) 0).map m.expire).getD 0
      else m.headExpire
    slNext := slNext
    currSkiplistDepth := lowerDepth slNext m.currSkiplistDepth }

/-- `rte_timer_manage` breaks the list at the current time: the expired timers stay linked
on level 0, `pending_head` goes on behind them. -/
def breakList (m : SkipList T) (curTime : ℕ) : SkipList T :=
  let prev := timerGetPrevEntries m curTime
  let slNext := fun n i =>
    if i < m.currSkiplistDepth ∧ prev i ≠ none then cutAfter (m.level i) none (prev i) n
    else m.slNext n i
  { m with
    slNext := slNext
    currSkiplistDepth := m.currSkiplistDepth -
      (List.range m.currSkiplistDepth).countP
        (fun i => prev i ≠ none ∧ m.slNext (prev i) i = none)
    headExpire := ((slNext none 0).map m.expire).getD 0 }

end Code

/-! ## What the memory stands for -/

def expired (expire : T → ℕ) (curTime : ℕ) (l : List T) : List T :=
  l.takeWhile (fun t => expire t ≤ curTime)

def remaining (expire : T → ℕ) (curTime : ℕ) (l : List T) : List T :=
  l.dropWhile (fun t => expire t ≤ curTime)

theorem expired_append_remaining (expire : T → ℕ) (curTime : ℕ) (l : List T) :
    expired expire curTime l ++ remaining expire curTime l = l :=
  List.takeWhile_append_dropWhile

/-- The memory holds the timers `L i` on level `i`: each level is a sublist of the one
below, level 0 is in the order of expiry, the depth is the number of levels in use and
`pending_head.expire` is the expiry of the first timer. -/
structure Represents (m : SkipList T) (L : ℕ → List T) : Prop where
  linked : ∀ i < maxSkiplistDepth, Linked some (m.level i) none (L i)
  nested : ∀ i, (L (i + 1)).Sublist (L i)
  sorted : (L 0).Pairwise (fun a b => m.expire a ≤ m.expire b)
  nodup : (L 0).Nodup
  depth : ∀ i, i < m.currSkiplistDepth ↔ L i ≠ []
  depth_le : m.currSkiplistDepth ≤ maxSkiplistDepth
  headExpire : m.headExpire = ((L 0).head?.map m.expire).getD 0

theorem initial_of_sorted {expire : T → ℕ} {l : List T}
    (hl : l.Pairwise (fun a b => expire a ≤ expire b)) (v : ℕ) :
    Initial (fun t => decide (expire t ≤ v)) l := by
  refine hl.imp ?_
  intro a b hab hb
  simp only [decide_eq_true_eq] at hb ⊢
  omega

theorem represents_empty (expire : T → ℕ) :
    Represents (SkipList.empty expire) (fun _ => []) where
  linked _ _ := rfl
  nested _ := List.Sublist.refl _
  sorted := List.Pairwise.nil
  nodup := List.nodup_nil
  depth i := by simp [SkipList.empty]
  depth_le := by simp [SkipList.empty]
  headExpire := rfl

namespace Represents

variable {m : SkipList T} {L : ℕ → List T} (h : Represents m L)

include h

theorem sublist_zero (i : ℕ) : (L i).Sublist (L 0) :=
  nested_of_le h.nested (Nat.zero_le i)

theorem nodup_level (i : ℕ) : (L i).Nodup := h.nodup.sublist (h.sublist_zero i)

theorem nodup_nodes (i : ℕ) : ((none : Option T) :: (L i).map some).Nodup := by
  simp [(h.nodup_level i).map (Option.some_injective T)]

theorem sorted_level (i : ℕ) : (L i).Pairwise (fun a b => m.expire a ≤ m.expire b) :=
  h.sorted.sublist (h.sublist_zero i)

theorem initial (i v : ℕ) : Initial (fun t => decide (m.expire t ≤ v)) (L i) :=
  initial_of_sorted (h.sorted_level i) v

theorem level_top : L m.currSkiplistDepth = [] := by
  by_contra hne
  exact absurd ((h.depth _).mpr hne) (lt_irrefl _)

variable [Fintype T]

theorem length_level (i : ℕ) : (L i).length ≤ Fintype.card T :=
  (h.nodup_level i).length_le_card

theorem timerGetPrevEntries_eq (v : ℕ) {i : ℕ} (hi : i ≤ m.currSkiplistDepth) :
    timerGetPrevEntries m v i = lastNode some none (expired m.expire v (L i)) := by
  unfold timerGetPrevEntries
  rw [search_eq (L := L) (fun j hj => h.linked j (lt_of_lt_of_le hj h.depth_le)) h.nested
    (fun j => h.initial j v) h.level_top (fun j => h.length_level j) (by omega)]
  have hlevel : m.currSkiplistDepth - (m.currSkiplistDepth - i) = i := by omega
  rw [hlevel]
  rfl

end Represents

/-! ## Adding a timer -/

def place (expire : T → ℕ) (tim : T) (l : List T) : List T :=
  l.takeWhile (fun t => expire t ≤ expire tim) ++
    tim :: l.dropWhile (fun t => expire t ≤ expire tim)

section Place

variable {expire : T → ℕ} {tim : T} {l l' : List T}

theorem place_eq (hl : l.Pairwise (fun a b => expire a ≤ expire b)) :
    place expire tim l = l.filter (fun t => expire t ≤ expire tim) ++
      tim :: l.filter (fun t => !(decide (expire t ≤ expire tim))) := by
  have hinitial := initial_of_sorted hl (expire tim)
  rw [place, hinitial.filter_eq, hinitial.filter_not_eq]

theorem place_perm (expire : T → ℕ) (tim : T) (l : List T) :
    (place expire tim l).Perm (tim :: l) := by
  unfold place
  refine List.perm_middle.trans (List.Perm.cons tim ?_)
  rw [List.takeWhile_append_dropWhile]

theorem mem_place {t : T} : t ∈ place expire tim l ↔ t = tim ∨ t ∈ l := by
  rw [(place_perm expire tim l).mem_iff, List.mem_cons]

theorem nodup_place (hl : l.Nodup) (ht : tim ∉ l) : (place expire tim l).Nodup :=
  (place_perm expire tim l).nodup_iff.mpr (List.nodup_cons.mpr ⟨ht, hl⟩)

theorem sublist_place (expire : T → ℕ) (tim : T) (l : List T) :
    l.Sublist (place expire tim l) := by
  unfold place
  calc
    l = l.takeWhile (fun t => expire t ≤ expire tim) ++
        l.dropWhile (fun t => expire t ≤ expire tim) := List.takeWhile_append_dropWhile.symm
    List.Sublist _ (place expire tim l) :=
      (List.Sublist.refl _).append (List.sublist_cons_self tim _)

theorem place_sublist_place (hl : l.Pairwise (fun a b => expire a ≤ expire b))
    (hsub : l'.Sublist l) : (place expire tim l').Sublist (place expire tim l) := by
  rw [place_eq hl, place_eq (hl.sublist hsub)]
  exact (hsub.filter _).append ((hsub.filter _).cons_cons tim)

theorem sorted_place (hl : l.Pairwise (fun a b => expire a ≤ expire b)) :
    (place expire tim l).Pairwise (fun a b => expire a ≤ expire b) := by
  rw [place_eq hl, List.pairwise_append, List.pairwise_cons]
  have hlow : ∀ t ∈ l.filter (fun t => expire t ≤ expire tim), expire t ≤ expire tim := by
    intro t ht
    simpa using (List.mem_filter.mp ht).2
  have hhigh : ∀ t ∈ l.filter (fun t => !(decide (expire t ≤ expire tim))),
      expire tim < expire t := by
    intro t ht
    simpa using (List.mem_filter.mp ht).2
  refine ⟨hl.filter _, ⟨?_, hl.filter _⟩, ?_⟩
  · intro t ht
    exact (hhigh t ht).le
  · intro a ha b hb
    have hle := hlow a ha
    rcases List.mem_cons.mp hb with rfl | hb
    · exact hle
    · have hlt := hhigh b hb
      omega

end Place

section Operations

variable [Fintype T] [DecidableEq T] {m : SkipList T} {L : ℕ → List T}

theorem timerGetSkiplistLevel_le (rand currDepth : ℕ) :
    timerGetSkiplistLevel rand currDepth ≤ currDepth ∧
      timerGetSkiplistLevel rand currDepth < maxSkiplistDepth := by
  unfold timerGetSkiplistLevel maxSkiplistDepth
  dsimp only
  split_ifs <;> omega

/-- `timer_add` puts the timer behind the entries that expire no later, on every level up
to the one drawn for it. -/
theorem Represents.timerAdd (h : Represents m L) {tim : T} (ht : tim ∉ L 0) (rand : ℕ) :
    Represents (timerAdd m tim rand) (fun i =>
      if i ≤ timerGetSkiplistLevel rand m.currSkiplistDepth then place m.expire tim (L i)
      else L i) := by
  obtain ⟨hlevel, hmax⟩ := timerGetSkiplistLevel_le rand m.currSkiplistDepth
  set timLevel := timerGetSkiplistLevel rand m.currSkiplistDepth with htimLevel
  have hfresh : ∀ i, tim ∉ L i := fun i hmem => ht ((h.sublist_zero i).subset hmem)
  have hlinked : ∀ i < maxSkiplistDepth,
      Linked some ((Timer.timerAdd m tim rand).level i) none
        (if i ≤ timLevel then place m.expire tim (L i) else L i) := by
    intro i hi
    by_cases hil : i ≤ timLevel
    · have hptr : (Timer.timerAdd m tim rand).level i =
          insertAfter some (m.level i) (timerGetPrevEntries m (m.expire tim) i) tim := by
        funext n
        simp only [SkipList.level, Timer.timerAdd]
        rw [← htimLevel, if_pos hil]
      rw [if_pos hil, hptr, h.timerGetPrevEntries_eq _ (by omega)]
      have hlist := h.linked i hi
      have hnodes := h.nodup_nodes i
      have hnew : some tim ∉ (none : Option T) :: (L i).map some := by simp [hfresh i]
      rw [← List.takeWhile_append_dropWhile (p := fun t => decide (m.expire t ≤ m.expire tim))
        (l := L i)] at hlist hnodes hnew
      exact hlist.insertAfter hnodes hnew
    · have hptr : (Timer.timerAdd m tim rand).level i = m.level i := by
        funext n
        simp only [SkipList.level, Timer.timerAdd]
        rw [← htimLevel, if_neg hil]
      rw [if_neg hil, hptr]
      exact h.linked i hi
  constructor
  case linked => exact hlinked
  case nested =>
    intro i
    by_cases hi : i + 1 ≤ timLevel
    · simp only [if_pos hi, if_pos (Nat.le_of_succ_le hi)]
      exact place_sublist_place (h.sorted_level i) (h.nested i)
    · simp only [if_neg hi]
      by_cases hi' : i ≤ timLevel
      · simp only [if_pos hi']
        exact (h.nested i).trans (sublist_place _ _ _)
      · simp only [if_neg hi']
        exact h.nested i
  case sorted =>
    simp only [Nat.zero_le, if_true]
    exact sorted_place h.sorted
  case nodup =>
    simp only [Nat.zero_le, if_true]
    exact nodup_place h.nodup ht
  case depth =>
    intro i
    have hplace : ∀ l : List T, place m.expire tim l ≠ [] := by simp [place]
    have hold := h.depth i
    simp only [Timer.timerAdd, ← htimLevel]
    by_cases hi : i ≤ timLevel
    · simp only [if_pos hi, ne_eq, hplace, not_false_eq_true, iff_true]
      split_ifs <;> omega
    · simp only [if_neg hi]
      rw [← hold]
      split_ifs <;> omega
  case depth_le =>
    have hle := h.depth_le
    simp only [Timer.timerAdd, ← htimLevel]
    split_ifs <;> omega
  case headExpire =>
    have hzero := (hlinked 0 (by decide)).next_eq_head?
    simp only [Nat.zero_le, if_true] at hzero ⊢
    show (((Timer.timerAdd m tim rand).level 0 none).map m.expire).getD m.headExpire = _
    rw [hzero]
    have hsome : (place m.expire tim (L 0)).head? ≠ none := by simp [place]
    cases hhead : (place m.expire tim (L 0)).head? with
    | none => exact absurd hhead hsome
    | some t => rfl

/-! ## Deleting a timer -/

omit [Fintype T] [DecidableEq T] in
theorem lt_lowerDepth_iff {slNext : Option T → ℕ → Option T} {depth : ℕ}
    (hhead : ∀ i < depth, slNext none i = (L i).head?)
    (hnested : ∀ i, (L (i + 1)).Sublist (L i)) (habove : ∀ i, depth ≤ i → L i = []) (i : ℕ) :
    i < lowerDepth slNext depth ↔ L i ≠ [] := by
  induction depth with
  | zero => simp [lowerDepth, habove i (Nat.zero_le i)]
  | succ depth ih =>
      unfold lowerDepth
      simp only [hhead depth (by omega), List.head?_eq_none_iff]
      split_ifs with hempty
      · apply ih (fun j hj => hhead j (by omega))
        intro j hj
        rcases Nat.lt_or_eq_of_le hj with hlt | rfl
        · exact habove j hlt
        · exact hempty
      · constructor
        · intro hi hnone
          have hsub := nested_of_le hnested (Nat.lt_succ_iff.mp hi)
          rw [hnone] at hsub
          exact hempty (List.sublist_nil.mp hsub)
        · intro hne
          by_contra hge
          exact hne (habove i (by omega))

/-- The walk to a timer first passes the entries before `tim->expire - 1`, then those with
its own time up to the timer itself. -/
theorem Represents.prevForNode_eq (h : Represents m L) (tim : T) {i : ℕ}
    (hi : i < m.currSkiplistDepth) :
    timerGetPrevEntriesForNode m tim i =
      lastNode some none
        (expired m.expire ((m.expire tim + 2 ^ 64 - 1) % 2 ^ 64) (L i) ++
          (remaining m.expire ((m.expire tim + 2 ^ 64 - 1) % 2 ^ 64) (L i)).takeWhile
            (fun t => decide (t ≠ tim ∧ m.expire t ≤ m.expire tim))) := by
  have hlist := h.linked i (lt_of_lt_of_le hi h.depth_le)
  have hlength := h.length_level i
  unfold timerGetPrevEntriesForNode
  rw [h.timerGetPrevEntries_eq _ hi.le, lastNode_append]
  rw [← expired_append_remaining m.expire ((m.expire tim + 2 ^ 64 - 1) % 2 ^ 64) (L i)]
    at hlist hlength
  apply hlist.right.advance_eq
  have hle := (List.takeWhile_sublist
    (l := remaining m.expire ((m.expire tim + 2 ^ 64 - 1) % 2 ^ 64) (L i))
    (fun t => decide (t ≠ tim ∧ m.expire t ≤ m.expire tim))).length_le
  rw [List.length_append] at hlength
  omega

theorem Represents.timerGetPrevEntriesForNode_eq (h : Represents m L) {tim : T}
    (hpos : 0 < m.expire tim) (hlt : m.expire tim < 2 ^ 64) {i : ℕ}
    (hi : i < m.currSkiplistDepth) :
    timerGetPrevEntriesForNode m tim i =
      lastNode some none
        ((L i).takeWhile (fun t => decide (t ≠ tim ∧ m.expire t ≤ m.expire tim))) := by
  have hbefore : (m.expire tim + 2 ^ 64 - 1) % 2 ^ 64 = m.expire tim - 1 := by omega
  have hpass : ∀ t ∈ expired m.expire (m.expire tim - 1) (L i),
      decide (t ≠ tim ∧ m.expire t ≤ m.expire tim) = true := by
    intro t ht
    rw [expired, ← (h.initial i _).filter_eq] at ht
    have hle : m.expire t ≤ m.expire tim - 1 := by simpa using (List.mem_filter.mp ht).2
    have hne : t ≠ tim := by
      rintro rfl
      omega
    simp only [decide_eq_true_eq]
    exact ⟨hne, by omega⟩
  rw [h.prevForNode_eq tim hi, hbefore, ← List.takeWhile_append_of_pos hpass,
    expired_append_remaining]

omit [Fintype T] in
theorem Represents.takeWhile_eq (h : Represents m L) {tim : T} {i : ℕ} {before after : List T}
    (hsplit : L i = before ++ tim :: after) :
    (L i).takeWhile (fun t => decide (t ≠ tim ∧ m.expire t ≤ m.expire tim)) = before := by
  have hnodup := h.nodup_level i
  have hsorted := h.sorted_level i
  rw [hsplit] at hnodup hsorted ⊢
  have hpass : ∀ t ∈ before, decide (t ≠ tim ∧ m.expire t ≤ m.expire tim) = true := by
    intro t ht
    simp only [decide_eq_true_eq]
    refine ⟨?_, (List.pairwise_append.mp hsorted).2.2 t ht tim (by simp)⟩
    rintro rfl
    exact (List.nodup_append.mp hnodup).2.2 t ht t (by simp) rfl
  rw [List.takeWhile_append_of_pos hpass, List.takeWhile_cons_of_neg (by simp), List.append_nil]

theorem Represents.timerDel_level (h : Represents m L) {tim : T} (hpos : 0 < m.expire tim)
    (hlt : m.expire tim < 2 ^ 64) {i : ℕ} (hi : i < maxSkiplistDepth) :
    Linked some ((timerDel m tim).level i) none ((L i).erase tim) := by
  have hlist := h.linked i hi
  by_cases hdepth : i < m.currSkiplistDepth
  · have hprev := h.timerGetPrevEntriesForNode_eq hpos hlt hdepth
    by_cases hmem : tim ∈ L i
    · obtain ⟨before, after, hsplit⟩ := List.append_of_mem hmem
      rw [h.takeWhile_eq hsplit] at hprev
      rw [hsplit] at hlist
      have hnodes := h.nodup_nodes i
      rw [hsplit] at hnodes
      have hnext : m.slNext (lastNode some none before) i = some tim := hlist.next_lastNode
      have hptr : (timerDel m tim).level i =
          removeAfter some (m.level i) (lastNode some none before) tim := by
        funext n
        simp only [SkipList.level, timerDel, hprev]
        rw [if_pos ⟨hdepth, hnext⟩]
      have hnot : tim ∉ before := by
        intro hbefore
        have hnodup := h.nodup_level i
        rw [hsplit] at hnodup
        exact (List.nodup_append.mp hnodup).2.2 tim hbefore tim (by simp) rfl
      rw [hptr, hsplit, List.erase_append_right _ hnot, List.erase_cons_head]
      exact hlist.removeAfter hnodes
    · set go := fun t => decide (t ≠ tim ∧ m.expire t ≤ m.expire tim) with hgo
      have hsplit : L i = (L i).takeWhile go ++ (L i).dropWhile go :=
        List.takeWhile_append_dropWhile.symm
      have hnext : m.slNext (timerGetPrevEntriesForNode m tim i) i ≠ some tim := by
        rw [hprev]
        rw [hsplit] at hlist
        have hhead := hlist.next_lastNode
        intro heq
        apply hmem
        have hfirst : ((L i).dropWhile go).head? = some tim := by
          rw [← hhead]
          exact heq
        exact (List.dropWhile_sublist go).subset (List.mem_of_head? hfirst)
      have hptr : (timerDel m tim).level i = m.level i := by
        funext n
        simp only [SkipList.level, timerDel]
        rw [if_neg (fun hcond => hnext hcond.2)]
      rw [hptr, List.erase_of_not_mem hmem]
      exact hlist
  · have hempty : L i = [] := by
      by_contra hne
      exact hdepth ((h.depth i).mpr hne)
    have hptr : (timerDel m tim).level i = m.level i := by
      funext n
      simp only [SkipList.level, timerDel]
      rw [if_neg (fun hcond => hdepth hcond.1)]
    rw [hptr, hempty]
    rw [hempty] at hlist
    exact hlist

/-- `timer_del` unlinks the timer on every level; a timer that is not in the list it
leaves the list as it is. -/
theorem Represents.timerDel (h : Represents m L) {tim : T} (hpos : 0 < m.expire tim)
    (hlt : m.expire tim < 2 ^ 64) :
    Represents (timerDel m tim) (fun i => (L i).erase tim) := by
  have hlevel : ∀ i < maxSkiplistDepth,
      Linked some ((Timer.timerDel m tim).level i) none ((L i).erase tim) :=
    fun i hi => h.timerDel_level hpos hlt hi
  have hnested : ∀ i, ((L (i + 1)).erase tim).Sublist ((L i).erase tim) :=
    fun i => (h.nested i).erase tim
  have hdepth : ∀ i, i < (Timer.timerDel m tim).currSkiplistDepth ↔ (L i).erase tim ≠ [] := by
    intro i
    apply lt_lowerDepth_iff (L := fun i => (L i).erase tim) _ hnested
    · intro j hj
      have hempty : L j = [] := by
        by_contra hne
        have := (h.depth j).mpr hne
        omega
      simp [hempty]
    · intro j hj
      exact (hlevel j (lt_of_lt_of_le hj h.depth_le)).next_eq_head?
  refine ⟨hlevel, hnested, ?_, h.nodup.erase tim, hdepth, ?_, ?_⟩
  · exact h.sorted.sublist List.erase_sublist
  · by_contra hgt
    have hne := (hdepth maxSkiplistDepth).mp (by omega)
    apply hne
    have hempty : L maxSkiplistDepth = [] := by
      by_contra hne'
      have := (h.depth _).mpr hne'
      have := h.depth_le
      omega
    simp [hempty]
  · have hlist := h.linked 0 (by decide)
    have hhead := hlist.next_eq_head?
    show (if m.level 0 none = some tim then ((m.level 0 (some tim)).map m.expire).getD 0
      else m.headExpire) = (((L 0).erase tim).head?.map m.expire).getD 0
    rw [hhead]
    cases hL : L 0 with
    | nil => simp [h.headExpire, hL]
    | cons first rest =>
        rw [hL] at hlist
        by_cases hfirst : first = tim
        · subst hfirst
          rw [if_pos (by simp), List.erase_cons_head, hlist.2.next_eq_head?]
        · rw [if_neg (by simpa using hfirst), h.headExpire, hL,
            List.erase_cons_tail (by simpa using hfirst)]
          rfl

/-- For expiry 0 the search for `tim->expire - 1` wraps around and runs past the timer. -/
theorem Represents.timerDel_level_zero (h : Represents m L) {tim : T} (hzero : m.expire tim = 0)
    (hbound : ∀ t, m.expire t < 2 ^ 64) (i : ℕ) :
    (Timer.timerDel m tim).level i = m.level i := by
  funext n
  simp only [SkipList.level, Timer.timerDel]
  rw [if_neg]
  rintro ⟨hdepth, heq⟩
  have hlist := h.linked i (lt_of_lt_of_le hdepth h.depth_le)
  have hwrap : (m.expire tim + 2 ^ 64 - 1) % 2 ^ 64 = 2 ^ 64 - 1 := by omega
  have hall : expired m.expire (2 ^ 64 - 1) (L i) = L i := by
    rw [expired, ← (h.initial i _).filter_eq, List.filter_eq_self]
    intro t _
    have hlt := hbound t
    simp
    omega
  have hnone : remaining m.expire (2 ^ 64 - 1) (L i) = [] := by
    have hparts := expired_append_remaining m.expire (2 ^ 64 - 1) (L i)
    rw [hall] at hparts
    simpa using hparts
  have hprev : timerGetPrevEntriesForNode m tim i = lastNode some none (L i) := by
    rw [h.prevForNode_eq tim hdepth, hwrap, hall, hnone]
    simp
  have hend : m.slNext (timerGetPrevEntriesForNode m tim i) i = none := by
    rw [hprev]
    exact Linked.next_lastNode (b := []) (by simpa using hlist)
  rw [hend] at heq
  cases heq

/-- `timer_del` takes a listed timer out exactly if its expiry is not 0; for 0 it leaves
every level as it is. -/
theorem timerDel_removes_iff (m : SkipList T) (L : ℕ → List T) (h : Represents m L) (tim : T)
    (htim : tim ∈ L 0) (hbound : ∀ t, m.expire t < 2 ^ 64) :
    (Represents (timerDel m tim) (fun i => (L i).erase tim) ↔ m.expire tim ≠ 0) ∧
      (m.expire tim = 0 → ∀ i, (timerDel m tim).level i = m.level i) := by
  refine ⟨⟨?_, ?_⟩, fun hzero => h.timerDel_level_zero hzero hbound⟩
  · intro hdel hzero
    have hlinked := hdel.linked 0 (by decide)
    rw [h.timerDel_level_zero hzero hbound] at hlinked
    have hlength := congrArg List.length ((h.linked 0 (by decide)).unique hlinked)
    rw [List.length_erase_of_mem htim] at hlength
    have hpos := List.length_pos_of_mem htim
    omega
  · intro hne
    exact h.timerDel (Nat.pos_of_ne_zero hne) (hbound tim)

/-- Three timers with expiries 5, 6 and 7 on three levels. -/
def threeLevels : SkipList (Fin 3) :=
  timerAdd (timerAdd (timerAdd (SkipList.empty fun t => t.val + 5) 2 0) 0 0) 1 0

theorem timerDel_removes_iff_threeLevels :
    threeLevels.currSkiplistDepth = 3 ∧ ∃ L, Represents threeLevels L ∧ L 0 = [0, 1, 2] ∧
      L 2 = [1] ∧ Represents (timerDel threeLevels 1) (fun i => (L i).erase 1) := by
  have hfirst : Represents (timerAdd (SkipList.empty fun t : Fin 3 => t.val + 5) 2 0) _ :=
    (represents_empty _).timerAdd (by simp) 0
  have hnew : (0 : Fin 3) ∉ place (fun t => t.val + 5) 2 [] := by decide
  have hsecond := hfirst.timerAdd hnew 0
  have h : Represents threeLevels _ := hsecond.timerAdd (by decide +kernel) 0
  refine ⟨by decide +kernel, _, h, by decide +kernel, by decide +kernel, ?_⟩
  apply (timerDel_removes_iff _ _ h 1 _ _).1.mpr
  · decide +kernel
  · decide +kernel
  · intro t
    show t.val + 5 < 2 ^ 64
    omega

/-! ## Breaking the list at the current time -/

theorem Represents.breakList_level (h : Represents m L) (curTime : ℕ) {i : ℕ}
    (hi : i < maxSkiplistDepth) :
    Linked some ((breakList m curTime).level i) none (remaining m.expire curTime (L i)) ∧
      ∀ t rest, expired m.expire curTime (L i) = t :: rest →
        Linked some ((breakList m curTime).level i) (some t) rest := by
  have hlist := h.linked i hi
  have hnodes := h.nodup_nodes i
  rw [← expired_append_remaining m.expire curTime (L i)] at hlist hnodes
  by_cases hdepth : i < m.currSkiplistDepth
  · have hprev := h.timerGetPrevEntries_eq curTime hdepth.le
    cases hexp : expired m.expire curTime (L i) with
    | nil =>
        rw [hexp] at hlist
        have hhead : timerGetPrevEntries m curTime i = none := by
          rw [hprev, hexp]
          rfl
        have hptr : (breakList m curTime).level i = m.level i := by
          funext n
          simp only [SkipList.level, breakList]
          rw [if_neg (fun hcond => hcond.2 hhead)]
        rw [hptr]
        exact ⟨hlist, by simp⟩
    | cons t rest =>
        rw [hexp] at hlist hnodes
        have hlast : timerGetPrevEntries m curTime i = lastNode some none (t :: rest) := by
          rw [hprev, hexp]
        have hsome : timerGetPrevEntries m curTime i ≠ none := by
          rw [hlast]
          exact (ne_lastNode_cons (List.nodup_cons.mp hnodes).1).symm
        have hptr : (breakList m curTime).level i =
            cutAfter (m.level i) none (lastNode some none (t :: rest)) := by
          funext n
          simp only [SkipList.level, breakList]
          rw [if_pos ⟨hdepth, hsome⟩, hlast]
        rw [hptr]
        obtain ⟨hright, hleft⟩ := hlist.cutAfter hnodes
        refine ⟨hright, ?_⟩
        intro t' rest' heq
        cases heq
        exact hleft
  · have hempty : L i = [] := by
      by_contra hne
      exact hdepth ((h.depth i).mpr hne)
    have hptr : (breakList m curTime).level i = m.level i := by
      funext n
      simp only [SkipList.level, breakList]
      rw [if_neg (fun hcond => hdepth hcond.1)]
    rw [expired_append_remaining] at hlist
    rw [hptr, hempty]
    rw [hempty] at hlist
    exact ⟨hlist, by simp [expired]⟩

omit [Fintype T] [DecidableEq T] in
theorem Represents.remaining_nested (h : Represents m L) (curTime : ℕ) (i : ℕ) :
    (remaining m.expire curTime (L (i + 1))).Sublist (remaining m.expire curTime (L i)) := by
  unfold remaining
  rw [← (h.initial (i + 1) curTime).filter_not_eq, ← (h.initial i curTime).filter_not_eq]
  exact (h.nested i).filter _

theorem Represents.lt_breakList_depth_iff (h : Represents m L) (curTime i : ℕ) :
    i < (breakList m curTime).currSkiplistDepth ↔ remaining m.expire curTime (L i) ≠ [] := by
  set keeps := fun i => decide (remaining m.expire curTime (L i) ≠ []) with hkeeps
  have hcond : ∀ j ∈ List.range m.currSkiplistDepth,
      decide (timerGetPrevEntries m curTime j ≠ none ∧
        m.slNext (timerGetPrevEntries m curTime j) j = none) = !keeps j := by
    intro j hj
    have hdepth : j < m.currSkiplistDepth := List.mem_range.mp hj
    have hlist := h.linked j (lt_of_lt_of_le hdepth h.depth_le)
    have hne := (h.depth j).mp hdepth
    rw [← expired_append_remaining m.expire curTime (L j)] at hlist
    have hprev := h.timerGetPrevEntries_eq curTime hdepth.le
    have hnext : m.slNext (timerGetPrevEntries m curTime j) j =
        (remaining m.expire curTime (L j)).head? := by
      rw [hprev]
      exact hlist.next_lastNode
    rw [Bool.eq_iff_iff]
    simp only [hnext, List.head?_eq_none_iff, hkeeps, decide_eq_true_eq, Bool.not_eq_true',
      decide_eq_false_iff_not, not_not]
    constructor
    · exact fun hboth => hboth.2
    · intro hnone
      refine ⟨?_, hnone⟩
      -- everything on the level has expired, so the walk has left the head
      rw [hprev]
      cases hexp : expired m.expire curTime (L j) with
      | nil =>
          have hall := expired_append_remaining m.expire curTime (L j)
          rw [hexp, hnone] at hall
          exact absurd hall.symm hne
      | cons t rest =>
          apply Ne.symm
          apply ne_lastNode_cons (b := [])
          simp
  have hcount : (breakList m curTime).currSkiplistDepth =
      (List.range m.currSkiplistDepth).countP keeps := by
    have hsum := List.length_eq_countP_add_countP keeps (l := List.range m.currSkiplistDepth)
    have hother : (List.range m.currSkiplistDepth).countP
          (fun j => decide (timerGetPrevEntries m curTime j ≠ none ∧
            m.slNext (timerGetPrevEntries m curTime j) j = none)) =
        (List.range m.currSkiplistDepth).countP (fun j => decide ¬keeps j = true) := by
      apply List.countP_congr
      intro j hj
      rw [hcond j hj]
      simp
    show m.currSkiplistDepth - _ = _
    rw [hother]
    rw [List.length_range] at hsum
    omega
  rw [hcount, lt_countP_range_iff]
  · simp only [hkeeps, decide_eq_true_eq]
    constructor
    · exact fun hboth => hboth.2
    · intro hne
      refine ⟨(h.depth i).mpr ?_, hne⟩
      intro hempty
      rw [hempty] at hne
      exact hne rfl
  · intro j hj
    simp only [hkeeps, decide_eq_true_eq] at hj ⊢
    intro hnone
    have hsub := h.remaining_nested curTime j
    rw [hnone] at hsub
    exact hj (List.sublist_nil.mp hsub)

/-- Breaking the list leaves the timers still to come, and the expired ones linked behind
the first of them. -/
theorem Represents.breakList (h : Represents m L) (curTime : ℕ) :
    Represents (breakList m curTime) (fun i => remaining m.expire curTime (L i)) := by
  have hlevel : ∀ i < maxSkiplistDepth, Linked some ((Timer.breakList m curTime).level i) none
      (remaining m.expire curTime (L i)) := fun i hi => (h.breakList_level curTime hi).1
  refine ⟨hlevel, h.remaining_nested curTime, ?_, ?_, h.lt_breakList_depth_iff curTime, ?_, ?_⟩
  · exact h.sorted.sublist (List.dropWhile_sublist _)
  · exact h.nodup.sublist (List.dropWhile_sublist _)
  · show m.currSkiplistDepth - _ ≤ _
    have hle := h.depth_le
    omega
  · show (((Timer.breakList m curTime).level 0 none).map m.expire).getD 0 = _
    rw [(hlevel 0 (by decide)).next_eq_head?]
    rfl

/-! ## What the operations leave alone -/

omit [Fintype T] [DecidableEq T] in
theorem Represents.lastNode_ne (h : Represents m L) {r : T} (hr : r ∉ L 0) {i : ℕ} {l : List T}
    (hl : l.Sublist (L i)) : some r ≠ lastNode some none l := by
  intro heq
  have hmem : lastNode some none l ∈ (none : Option T) :: l.map some := lastNode_mem none l
  rw [← heq] at hmem
  have hrl : r ∈ l := by simpa using hmem
  exact hr ((hl.trans (h.sublist_zero i)).subset hrl)

theorem Represents.timerAdd_other (h : Represents m L) {tim r : T} (hr : r ∉ L 0)
    (hne : r ≠ tim) (rand i : ℕ) :
    (Timer.timerAdd m tim rand).slNext (some r) i = m.slNext (some r) i := by
  obtain ⟨hlevel, -⟩ := timerGetSkiplistLevel_le rand m.currSkiplistDepth
  simp only [Timer.timerAdd]
  split_ifs with hi
  · have hprev : some r ≠ timerGetPrevEntries m (m.expire tim) i := by
      rw [h.timerGetPrevEntries_eq _ (by omega)]
      exact h.lastNode_ne hr (List.takeWhile_sublist _)
    have hnode : some r ≠ some tim := by simpa using hne
    rw [insertAfter, Function.update_of_ne hprev, Function.update_of_ne hnode]
    rfl
  · rfl

theorem Represents.timerDel_other (h : Represents m L) {tim r : T} (hr : r ∉ L 0) (i : ℕ) :
    (Timer.timerDel m tim).slNext (some r) i = m.slNext (some r) i := by
  simp only [Timer.timerDel]
  split_ifs with hcond
  · obtain ⟨hi, -⟩ := hcond
    have hprev : some r ≠ timerGetPrevEntriesForNode m tim i := by
      rw [h.prevForNode_eq tim hi]
      refine h.lastNode_ne (i := i) hr ?_
      have hsub := (List.Sublist.refl (expired m.expire
        ((m.expire tim + 2 ^ 64 - 1) % 2 ^ 64) (L i))).append
        (List.takeWhile_sublist (l := remaining m.expire
          ((m.expire tim + 2 ^ 64 - 1) % 2 ^ 64) (L i))
          (fun t => decide (t ≠ tim ∧ m.expire t ≤ m.expire tim)))
      rwa [expired_append_remaining] at hsub
    rw [removeAfter, Function.update_of_ne hprev]
    rfl
  · rfl

end Operations

end SoftwareSwitches.Timer
