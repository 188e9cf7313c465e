import SoftwareSwitches.FloWatcher.Launch
import SoftwareSwitches.Lib.CyclicOrder

/-!
# Walking over the lcores

`rte_get_next_lcore` and the loops built on it.  The `while` loop of the function
is run with fuel: `none` says that it has not left the loop yet.
-/

namespace SoftwareSwitches.Eal

open Lib.CyclicOrder

inductive Role
  | rte
  | off
  | service
deriving DecidableEq, Repr

/-- What `rte_eal_init` leaves in `struct rte_config` about the lcores. -/
structure Config where
  /-- `RTE_MAX_LCORE` of the build. -/
  maxLcore : ℕ
  maxLcore_pos : 0 < maxLcore
  maxLcore_lt : maxLcore < 2 ^ 32
  lcoreRole : ℕ → Role
  masterLcore : ℕ

namespace Config

variable (cfg : Config)

def rteLcoreIsEnabled (lcoreId : ℕ) : Bool :=
  if cfg.maxLcore ≤ lcoreId then false else cfg.lcoreRole lcoreId = .rte

def accepts (skipMaster : Bool) (i : ℕ) : Bool :=
  !(!cfg.rteLcoreIsEnabled i || (skipMaster && i == cfg.masterLcore))

def getNextLoop (skipMaster wrap : Bool) : ℕ → ℕ → Option ℕ
  | 0, _ => none
  | fuel + 1, i =>
    if i < cfg.maxLcore then
      if cfg.accepts skipMaster i then some i
      else getNextLoop skipMaster wrap fuel
        (if wrap then (i + 1) % cfg.maxLcore else i + 1)
    else some i

/-- `i` is an `unsigned`, so `-1` is `2 ^ 32 - 1` and its successor is `0`. -/
def rteGetNextLcore (i : ℕ) (skipMaster wrap : Bool) : Option ℕ :=
  let next := (i + 1) % 2 ^ 32
  cfg.getNextLoop skipMaster wrap (cfg.maxLcore + 1)
    (if wrap then next % cfg.maxLcore else next)

/-- The bodies a `for` loop over `rte_get_next_lcore(i, skip_master, 0)` runs. -/
def foreachLoop (skipMaster : Bool) : ℕ → Option ℕ → List ℕ
  | 0, _ => []
  | _, none => []
  | fuel + 1, some i =>
    if i < cfg.maxLcore then
      i :: foreachLoop skipMaster fuel (cfg.rteGetNextLcore i skipMaster false)
    else []

def rteLcoreForeach : List ℕ :=
  cfg.foreachLoop false cfg.maxLcore (cfg.rteGetNextLcore (2 ^ 32 - 1) false false)

def rteLcoreForeachSlave : List ℕ :=
  cfg.foreachLoop true cfg.maxLcore (cfg.rteGetNextLcore (2 ^ 32 - 1) true false)

def accepted (skipMaster : Bool) : List ℕ :=
  (List.range cfg.maxLcore).filter (cfg.accepts skipMaster)

variable {cfg} {skipMaster wrap : Bool}

theorem mem_accepted {i : ℕ} :
    i ∈ cfg.accepted skipMaster ↔ i < cfg.maxLcore ∧ cfg.accepts skipMaster i = true := by
  simp [accepted]

theorem accepted_increasing (cfg : Config) (skipMaster : Bool) :
    (cfg.accepted skipMaster).Pairwise (· < ·) :=
  List.pairwise_lt_range.filter _

theorem accepts_iff {i : ℕ} :
    cfg.accepts skipMaster i = true ↔
      cfg.rteLcoreIsEnabled i = true ∧ (skipMaster = true → i ≠ cfg.masterLcore) := by
  unfold accepts
  cases skipMaster <;> simp

/-! ## One call -/

theorem getNextLoop_of_first (fuel : ℕ) {i j : ℕ} (hij : i ≤ j) (hj : j < cfg.maxLcore)
    (hacc : cfg.accepts skipMaster j = true)
    (hnot : ∀ m, i ≤ m → m < j → cfg.accepts skipMaster m = false) :
    cfg.getNextLoop skipMaster wrap (fuel + (j - i) + 1) i = some j := by
  induction hd : j - i generalizing i with
  | zero =>
      have hi : i = j := by omega
      subst hi
      simp [getNextLoop, hj, hacc]
  | succ d ih =>
      have hlt : i < j := by omega
      have hnext : (if wrap then (i + 1) % cfg.maxLcore else i + 1) = i + 1 := by
        rw [Nat.mod_eq_of_lt (by omega)]
        simp
      unfold getNextLoop
      rw [if_pos (by omega), hnot i le_rfl hlt, hnext]
      exact ih (by omega) (fun m hm => hnot m (by omega)) (by omega)

theorem getNextLoop_skip (fuel : ℕ) {i : ℕ} (hi : i < cfg.maxLcore)
    (hnot : ∀ m, i ≤ m → m < cfg.maxLcore → cfg.accepts skipMaster m = false) :
    cfg.getNextLoop skipMaster wrap (fuel + (cfg.maxLcore - i)) i =
      cfg.getNextLoop skipMaster wrap fuel (if wrap then 0 else cfg.maxLcore) := by
  induction hd : cfg.maxLcore - i generalizing i with
  | zero => omega
  | succ d ih =>
      rw [← Nat.add_assoc, getNextLoop, if_pos hi, hnot i le_rfl hi]
      simp only [Bool.false_eq_true, if_false]
      by_cases hlast : i + 1 < cfg.maxLcore
      · have hnext : (if wrap then (i + 1) % cfg.maxLcore else i + 1) = i + 1 := by
          rw [Nat.mod_eq_of_lt hlast]
          simp
        rw [hnext]
        exact ih hlast (fun m hm => hnot m (by omega)) (by omega)
      · have hend : i + 1 = cfg.maxLcore := by omega
        have hzero : d = 0 := by omega
        rw [hend, Nat.mod_self, hzero, Nat.add_zero]

theorem getNextLoop_none
    (hnot : ∀ m, m < cfg.maxLcore → cfg.accepts skipMaster m = false) (fuel : ℕ) {i : ℕ}
    (hi : i < cfg.maxLcore) :
    cfg.getNextLoop skipMaster true fuel i = none := by
  induction fuel generalizing i with
  | zero => rfl
  | succ fuel ih =>
      unfold getNextLoop
      rw [if_pos hi, hnot i hi]
      exact ih (Nat.mod_lt _ cfg.maxLcore_pos)

theorem find?_accepted_eq_some {i j : ℕ}
    (hfind : (cfg.accepted skipMaster).find? (i ≤ ·) = some j) :
    i ≤ j ∧ j < cfg.maxLcore ∧ cfg.accepts skipMaster j = true ∧
      ∀ m, i ≤ m → m < j → cfg.accepts skipMaster m = false := by
  rw [List.find?_eq_some_iff_append] at hfind
  obtain ⟨hij, before, after, hsplit, hbefore⟩ := hfind
  have hmem : j ∈ cfg.accepted skipMaster := by simp [hsplit]
  obtain ⟨hj, hacc⟩ := mem_accepted.mp hmem
  refine ⟨by simpa using hij, hj, hacc, ?_⟩
  intro m him hmj
  by_contra hm
  have hmem' : m ∈ cfg.accepted skipMaster :=
    mem_accepted.mpr ⟨by omega, by simpa using hm⟩
  have hincr := accepted_increasing cfg skipMaster
  rw [hsplit] at hmem' hincr
  rcases List.mem_append.mp hmem' with hb | ha
  · have := hbefore m hb
    simp at this
    omega
  · rcases List.mem_cons.mp ha with rfl | ha'
    · omega
    · have hgt := (List.pairwise_cons.mp (List.pairwise_append.mp hincr).2.1).1 m ha'
      omega

theorem accepts_eq_false_of_find? {i : ℕ}
    (hfind : (cfg.accepted skipMaster).find? (i ≤ ·) = none) {m : ℕ} (him : i ≤ m)
    (hm : m < cfg.maxLcore) : cfg.accepts skipMaster m = false := by
  by_contra hacc
  have hmem : m ∈ cfg.accepted skipMaster := mem_accepted.mpr ⟨hm, by simpa using hacc⟩
  have := List.find?_eq_none.mp hfind m hmem
  simp at this
  omega

theorem getNextLoop_of_find? {fuel i j : ℕ} (hfuel : cfg.maxLcore ≤ fuel)
    (hfind : (cfg.accepted skipMaster).find? (i ≤ ·) = some j) :
    cfg.getNextLoop skipMaster wrap fuel i = some j := by
  obtain ⟨hij, hj, hacc, hnot⟩ := find?_accepted_eq_some hfind
  have hsplit : fuel = fuel - (j - i) - 1 + (j - i) + 1 := by omega
  rw [hsplit]
  exact getNextLoop_of_first _ hij hj hacc hnot

theorem getNextLoop_noWrap {i : ℕ} (hi : i ≤ cfg.maxLcore) :
    cfg.getNextLoop skipMaster false (cfg.maxLcore + 1) i =
      some (((cfg.accepted skipMaster).find? (i ≤ ·)).getD cfg.maxLcore) := by
  cases hfind : (cfg.accepted skipMaster).find? (i ≤ ·) with
  | some j => exact getNextLoop_of_find? (by omega) hfind
  | none =>
      rcases Nat.lt_or_eq_of_le hi with hlt | rfl
      · have hfuel : cfg.maxLcore + 1 = (i + 1) + (cfg.maxLcore - i) := by omega
        rw [hfuel, getNextLoop_skip _ hlt (fun m => accepts_eq_false_of_find? hfind)]
        simp [getNextLoop]
      · simp [getNextLoop]

/-- With `wrap` the loop goes on at lcore 0 behind the last one, and is never left
if no lcore is accepted. -/
theorem getNextLoop_wrap {i : ℕ} (hi : i < cfg.maxLcore) :
    cfg.getNextLoop skipMaster true (cfg.maxLcore + 1) i =
      ((cfg.accepted skipMaster).find? (i ≤ ·)).or (cfg.accepted skipMaster).head? := by
  cases hfind : (cfg.accepted skipMaster).find? (i ≤ ·) with
  | some j => exact getNextLoop_of_find? (by omega) hfind
  | none =>
      have hfuel : cfg.maxLcore + 1 = (i + 1) + (cfg.maxLcore - i) := by omega
      rw [hfuel, getNextLoop_skip _ hi (fun m => accepts_eq_false_of_find? hfind)]
      simp only [if_true, Option.none_or]
      cases hhead : (cfg.accepted skipMaster).head? with
      | some j =>
          have hfirst : (cfg.accepted skipMaster).find? (0 ≤ ·) = some j := by
            cases hacc : cfg.accepted skipMaster with
            | nil => simp [hacc] at hhead
            | cons first rest => simpa [hacc] using hhead
          obtain ⟨-, hj, hacc, hnot⟩ := find?_accepted_eq_some hfirst
          have hlt : j < i := by
            by_contra hge
            have hrejected := accepts_eq_false_of_find? hfind (m := j) (by omega) hj
            simp [hacc] at hrejected
          have hsplit : i + 1 = i - j + (j - 0) + 1 := by omega
          rw [hsplit]
          exact getNextLoop_of_first _ (Nat.zero_le j) hj hacc hnot
      | none =>
          have hempty : cfg.accepted skipMaster = [] := by simpa using hhead
          apply getNextLoop_none _ _ cfg.maxLcore_pos
          intro m hm
          by_contra hacc
          have hmem : m ∈ cfg.accepted skipMaster :=
            mem_accepted.mpr ⟨hm, by simpa using hacc⟩
          simp [hempty] at hmem

theorem rteGetNextLcore_wrap {i : ℕ} (hi : i < cfg.maxLcore) :
    cfg.rteGetNextLcore i skipMaster true = cyclicNext (cfg.accepted skipMaster) i := by
  have hmax := cfg.maxLcore_lt
  have hnext : (i + 1) % 2 ^ 32 = i + 1 := Nat.mod_eq_of_lt (by omega)
  unfold rteGetNextLcore cyclicNext firstAfter
  simp only [if_true]
  rw [hnext]
  by_cases hlast : i + 1 < cfg.maxLcore
  · rw [Nat.mod_eq_of_lt hlast, getNextLoop_wrap hlast]
    rfl
  · have hend : i + 1 = cfg.maxLcore := by omega
    rw [hend, Nat.mod_self, getNextLoop_wrap cfg.maxLcore_pos]
    have hnone : (cfg.accepted skipMaster).find? (i < ·) = none := by
      rw [List.find?_eq_none]
      intro j hj
      have hlt := (mem_accepted.mp hj).1
      simp
      omega
    rw [hnone]
    cases cfg.accepted skipMaster <;> simp

/-! ## The loops over the lcores -/

theorem filter_accepted_eq_cons {i j : ℕ}
    (hfind : (cfg.accepted skipMaster).find? (i ≤ ·) = some j) :
    (cfg.accepted skipMaster).filter (i ≤ ·) =
      j :: (cfg.accepted skipMaster).filter (j + 1 ≤ ·) := by
  rw [List.find?_eq_some_iff_append] at hfind
  obtain ⟨hij, before, after, hsplit, hbefore⟩ := hfind
  have hincr := accepted_increasing cfg skipMaster
  rw [hsplit] at hincr ⊢
  obtain ⟨-, hrest, hcross⟩ := List.pairwise_append.mp hincr
  have hafter := (List.pairwise_cons.mp hrest).1
  have hij' : i ≤ j := by simpa using hij
  have hlow : before.filter (i ≤ ·) = [] := by
    rw [List.filter_eq_nil_iff]
    intro m hm
    simpa using hbefore m hm
  have hlow' : before.filter (j + 1 ≤ ·) = [] := by
    rw [List.filter_eq_nil_iff]
    intro m hm
    have := hcross m hm j (by simp)
    simp
    omega
  have hhigh : after.filter (i ≤ ·) = after := by
    rw [List.filter_eq_self]
    intro m hm
    have := hafter m hm
    simp
    omega
  have hhigh' : after.filter (j + 1 ≤ ·) = after := by
    rw [List.filter_eq_self]
    intro m hm
    have := hafter m hm
    simp
    omega
  rw [List.filter_append, List.filter_append, hlow, hlow', List.nil_append, List.nil_append,
    List.filter_cons, List.filter_cons, if_pos (by simpa using hij'), if_neg (by simp), hhigh,
    hhigh']

theorem foreachLoop_eq (fuel : ℕ) {i : ℕ} (hfuel : cfg.maxLcore - i ≤ fuel)
    (hi : i ≤ cfg.maxLcore) :
    cfg.foreachLoop skipMaster fuel
        (cfg.getNextLoop skipMaster false (cfg.maxLcore + 1) i) =
      (cfg.accepted skipMaster).filter (i ≤ ·) := by
  induction fuel generalizing i with
  | zero =>
      have hall : (cfg.accepted skipMaster).filter (i ≤ ·) = [] := by
        rw [List.filter_eq_nil_iff]
        intro m hm
        have := (mem_accepted.mp hm).1
        simp
        omega
      rw [hall]
      rfl
  | succ fuel ih =>
      rw [getNextLoop_noWrap hi]
      cases hfind : (cfg.accepted skipMaster).find? (i ≤ ·) with
      | none =>
          have hall : (cfg.accepted skipMaster).filter (i ≤ ·) = [] := by
            rw [List.filter_eq_nil_iff]
            exact List.find?_eq_none.mp hfind
          simp [foreachLoop, hall]
      | some j =>
          obtain ⟨hij, hj, -, -⟩ := find?_accepted_eq_some hfind
          have hmax := cfg.maxLcore_lt
          have hnext : (j + 1) % 2 ^ 32 = j + 1 := Nat.mod_eq_of_lt (by omega)
          rw [filter_accepted_eq_cons hfind, ← ih (i := j + 1) (by omega) (by omega)]
          simp only [Option.getD_some, foreachLoop, if_pos hj, rteGetNextLcore,
            Bool.false_eq_true, if_false, hnext]

theorem foreachLoop_all (skipMaster : Bool) :
    cfg.foreachLoop skipMaster cfg.maxLcore
        (cfg.rteGetNextLcore (2 ^ 32 - 1) skipMaster false) =
      cfg.accepted skipMaster := by
  have hstart : cfg.rteGetNextLcore (2 ^ 32 - 1) skipMaster false =
      cfg.getNextLoop skipMaster false (cfg.maxLcore + 1) 0 := by
    simp [rteGetNextLcore]
  rw [hstart, foreachLoop_eq cfg.maxLcore (by omega) (by omega)]
  simp

theorem rteLcoreForeachSlave_eq_accepted : cfg.rteLcoreForeachSlave = cfg.accepted true :=
  foreachLoop_all true

theorem mem_rteLcoreForeachSlave {i : ℕ} :
    i ∈ cfg.rteLcoreForeachSlave ↔
      i < cfg.maxLcore ∧ cfg.lcoreRole i = .rte ∧ i ≠ cfg.masterLcore := by
  rw [rteLcoreForeachSlave_eq_accepted, mem_accepted, accepts_iff, rteLcoreIsEnabled]
  by_cases hlt : i < cfg.maxLcore
  · simp [hlt]
  · simp [hlt]

def lcores (cfg : Config) : FloWatcher.Lcores where
  master := cfg.masterLcore
  slaves := cfg.rteLcoreForeachSlave
  increasing := by
    rw [rteLcoreForeachSlave_eq_accepted]
    exact accepted_increasing cfg true
  master_notMem := by
    intro hmem
    exact (mem_rteLcoreForeachSlave.mp hmem).2.2 rfl

/-- `RTE_LCORE_FOREACH` runs its body once for every lcore of role `ROLE_RTE`, in
increasing order, and `RTE_LCORE_FOREACH_SLAVE` leaves out the master alone. -/
theorem foreach_visits_enabled (cfg : Config) :
    cfg.rteLcoreForeach =
        (List.range cfg.maxLcore).filter (fun i => cfg.lcoreRole i = .rte) ∧
      cfg.rteLcoreForeachSlave = cfg.rteLcoreForeach.filter (· ≠ cfg.masterLcore) := by
  have hall : cfg.rteLcoreForeach =
      (List.range cfg.maxLcore).filter (fun i => cfg.lcoreRole i = .rte) := by
    unfold rteLcoreForeach
    rw [foreachLoop_all]
    apply List.filter_congr
    intro i hi
    have hlt : ¬ cfg.maxLcore ≤ i := by simpa using hi
    rw [Bool.eq_iff_iff, accepts_iff]
    simp [rteLcoreIsEnabled, hlt]
  refine ⟨hall, ?_⟩
  rw [hall, rteLcoreForeachSlave_eq_accepted, List.filter_filter]
  apply List.filter_congr
  intro i hi
  have hlt : ¬ cfg.maxLcore ≤ i := by simpa using hi
  rw [Bool.eq_iff_iff, accepts_iff]
  simp [rteLcoreIsEnabled, hlt, and_comm]

/-! ## Placing timers round robin -/

/-- `tim_lcore` for a timer that thread `lcoreId` resets with `LCORE_ID_ANY`, with the
`prev_lcore` of all lcores afterwards.  A thread that is no EAL thread, whose number is
not below `RTE_MAX_LCORE`, starts at the `unsigned` `LCORE_ID_ANY`. -/
def chooseTimLcore (prevLcore : ℕ → ℕ) (lcoreId : ℕ) : Option (ℕ × (ℕ → ℕ)) :=
  if lcoreId < cfg.maxLcore then
    (cfg.rteGetNextLcore (prevLcore lcoreId) false true).map fun timLcore =>
      (timLcore, Function.update prevLcore lcoreId timLcore)
  else
    (cfg.rteGetNextLcore (2 ^ 32 - 1) false true).map fun timLcore => (timLcore, prevLcore)

def anyLcores (cfg : Config) : (ℕ → ℕ) → List ℕ → List (ℕ × ℕ)
  | _, [] => []
  | prevLcore, lcoreId :: callers =>
    match cfg.chooseTimLcore prevLcore lcoreId with
    | none => []
    | some (timLcore, prevLcore') => (lcoreId, timLcore) :: anyLcores cfg prevLcore' callers

def lcoresOf (lcoreId : ℕ) (choices : List (ℕ × ℕ)) : List ℕ :=
  (choices.filter (·.1 = lcoreId)).map Prod.snd

theorem rteGetNextLcore_any :
    cfg.rteGetNextLcore (2 ^ 32 - 1) skipMaster true = (cfg.accepted skipMaster).head? := by
  have hfirst : (cfg.accepted skipMaster).find? (0 ≤ ·) = (cfg.accepted skipMaster).head? := by
    cases cfg.accepted skipMaster <;> simp
  have hstart : cfg.rteGetNextLcore (2 ^ 32 - 1) skipMaster true =
      cfg.getNextLoop skipMaster true (cfg.maxLcore + 1) 0 := by
    simp [rteGetNextLcore]
  rw [hstart, getNextLoop_wrap cfg.maxLcore_pos, hfirst, Option.or_self]

section Placing

variable {prevLcore : ℕ → ℕ}
  (hprev : ∀ lcoreId, lcoreId < cfg.maxLcore → prevLcore lcoreId < cfg.maxLcore)
  (henabled : cfg.accepted false ≠ [])

include hprev henabled

theorem exists_chooseTimLcore (lcoreId : ℕ) :
    ∃ timLcore prevLcore', cfg.chooseTimLcore prevLcore lcoreId = some (timLcore, prevLcore') ∧
      timLcore ∈ cfg.accepted false ∧
      (∀ other, other < cfg.maxLcore → prevLcore' other < cfg.maxLcore) ∧
      (∀ other, other ≠ lcoreId → prevLcore' other = prevLcore other) ∧
      (lcoreId < cfg.maxLcore → prevLcore' lcoreId = timLcore ∧
        cyclicNext (cfg.accepted false) (prevLcore lcoreId) = some timLcore) ∧
      (cfg.maxLcore ≤ lcoreId → (cfg.accepted false).head? = some timLcore) := by
  by_cases heal : lcoreId < cfg.maxLcore
  · have hpos : 0 < (cfg.accepted false).length := List.length_pos_iff.mpr henabled
    have hincr := accepted_increasing cfg false
    obtain ⟨timLcore, hnext⟩ : ∃ timLcore,
        cyclicNext (cfg.accepted false) (prevLcore lcoreId) = some timLcore := by
      rw [cyclicNext_eq_getElem? hincr, List.getElem?_eq_getElem (Nat.mod_lt _ hpos)]
      exact ⟨_, rfl⟩
    have hmem : timLcore ∈ cfg.accepted false := by
      rw [cyclicNext_eq_getElem? hincr] at hnext
      exact List.mem_of_getElem? hnext
    refine ⟨timLcore, Function.update prevLcore lcoreId timLcore, ?_, hmem, ?_, ?_, ?_, ?_⟩
    · rw [chooseTimLcore, if_pos heal, rteGetNextLcore_wrap (hprev lcoreId heal), hnext]
      rfl
    · intro other hother
      by_cases heq : other = lcoreId
      · rw [heq, Function.update_self]
        exact (mem_accepted.mp hmem).1
      · rw [Function.update_of_ne heq]
        exact hprev other hother
    · intro other hother
      exact Function.update_of_ne hother _ _
    · intro _
      exact ⟨Function.update_self _ _ _, hnext⟩
    · intro hge
      omega
  · obtain ⟨timLcore, rest, hlist⟩ := List.exists_cons_of_ne_nil henabled
    have hhead : (cfg.accepted false).head? = some timLcore := by rw [hlist, List.head?_cons]
    refine ⟨timLcore, prevLcore, ?_, ?_, hprev, fun _ _ => rfl, ?_, fun _ => hhead⟩
    · rw [chooseTimLcore, if_neg heal, rteGetNextLcore_any, hhead]
      rfl
    · rw [hlist]
      exact List.mem_cons_self
    · intro hlt
      omega

theorem map_fst_anyLcores (callers : List ℕ) :
    (cfg.anyLcores prevLcore callers).map Prod.fst = callers := by
  induction callers generalizing prevLcore with
  | nil => rfl
  | cons lcoreId callers ih =>
      obtain ⟨timLcore, prevLcore', hchoose, -, hprev', -⟩ :=
        exists_chooseTimLcore hprev henabled lcoreId
      rw [anyLcores, hchoose]
      simp only [List.map_cons]
      rw [ih hprev']

theorem mem_accepted_of_mem_anyLcores (callers : List ℕ) :
    ∀ choice ∈ cfg.anyLcores prevLcore callers, choice.2 ∈ cfg.accepted false ∧
      (cfg.maxLcore ≤ choice.1 → (cfg.accepted false).head? = some choice.2) := by
  induction callers generalizing prevLcore with
  | nil => simp [anyLcores]
  | cons lcoreId callers ih =>
      obtain ⟨timLcore, prevLcore', hchoose, hmem, hprev', -, -, hfirst⟩ :=
        exists_chooseTimLcore hprev henabled lcoreId
      rw [anyLcores, hchoose]
      intro choice hchoice
      rcases List.mem_cons.mp hchoice with rfl | hrest
      · exact ⟨hmem, hfirst⟩
      · exact ih hprev' choice hrest

theorem lcoresOf_anyLcores {lcoreId : ℕ} (heal : lcoreId < cfg.maxLcore) (callers : List ℕ) :
    lcoresOf lcoreId (cfg.anyLcores prevLcore callers) =
      visits (cfg.accepted false) (callers.count lcoreId) (prevLcore lcoreId) := by
  induction callers generalizing prevLcore with
  | nil => rfl
  | cons caller callers ih =>
      obtain ⟨timLcore, prevLcore', hchoose, -, hprev', hothers, hown, -⟩ :=
        exists_chooseTimLcore hprev henabled caller
      have hrest := ih hprev'
      unfold lcoresOf at hrest
      rw [anyLcores, hchoose, lcoresOf]
      by_cases heq : caller = lcoreId
      · subst heq
        obtain ⟨hprevious, hnext⟩ := hown heal
        rw [List.count_cons_self, visits, hnext]
        simp only [List.filter_cons, decide_true, if_true, List.map_cons]
        rw [hrest, hprevious]
      · rw [List.count_cons_of_ne heq, ← hothers lcoreId (Ne.symm heq), ← hrest]
        simp [heq]

end Placing

/-- Timers placed round robin are spread evenly: every one goes to an enabled lcore,
after any number of them none of those that an EAL thread has placed is more than one
ahead of another, `m` full rounds of it place exactly `m` on each, and the other threads
place all of theirs on the first. -/
theorem anyLcores_balanced (cfg : Config) (prevLcore : ℕ → ℕ)
    (hprev : ∀ lcoreId, lcoreId < cfg.maxLcore → prevLcore lcoreId < cfg.maxLcore)
    (henabled : cfg.rteLcoreForeach ≠ []) (callers : List ℕ) :
    (cfg.anyLcores prevLcore callers).map Prod.fst = callers ∧
      (∀ choice ∈ cfg.anyLcores prevLcore callers, choice.2 ∈ cfg.rteLcoreForeach ∧
        (cfg.maxLcore ≤ choice.1 → cfg.rteLcoreForeach.head? = some choice.2)) ∧
      ∀ lcoreId, lcoreId < cfg.maxLcore →
        (∀ a ∈ cfg.rteLcoreForeach, ∀ b ∈ cfg.rteLcoreForeach,
          (lcoresOf lcoreId (cfg.anyLcores prevLcore callers)).count a ≤
            (lcoresOf lcoreId (cfg.anyLcores prevLcore callers)).count b + 1) ∧
        ∀ m, callers.count lcoreId = m * cfg.rteLcoreForeach.length →
          ∀ a ∈ cfg.rteLcoreForeach,
            (lcoresOf lcoreId (cfg.anyLcores prevLcore callers)).count a = m := by
  have hlist : cfg.rteLcoreForeach = cfg.accepted false := foreachLoop_all false
  have hincr := accepted_increasing cfg false
  rw [hlist] at henabled ⊢
  refine ⟨map_fst_anyLcores hprev henabled callers,
    mem_accepted_of_mem_anyLcores hprev henabled callers, ?_⟩
  intro lcoreId heal
  rw [lcoresOf_anyLcores hprev henabled heal]
  refine ⟨fun a ha b hb => count_visits_le hincr ha hb _ _, ?_⟩
  intro m hm a ha
  rw [hm]
  exact count_visits_length hincr ha m _

def threeOfEight : Config where
  maxLcore := 8
  maxLcore_pos := by decide
  maxLcore_lt := by decide
  lcoreRole i := if i = 1 ∨ i = 2 ∨ i = 5 then .rte else .off
  masterLcore := 1

/-- Lcores 1 and 2 and a thread that is no EAL thread, in turns. -/
def threeThreads : List ℕ := [2, 1, 2, 2 ^ 32 - 1, 2, 1, 2, 2, 2]

theorem anyLcores_balanced_threeOfEight :
    threeOfEight.anyLcores id threeThreads =
        [(2, 5), (1, 2), (2, 1), (2 ^ 32 - 1, 1), (2, 2), (1, 5), (2, 5), (2, 1), (2, 2)] ∧
      (lcoresOf 2 (threeOfEight.anyLcores id threeThreads)).count 5 = 2 :=
  ⟨by decide, ((anyLcores_balanced threeOfEight id (fun _ h => h) (by decide)
    threeThreads).2.2 2 (by decide)).2 2 (by decide) 5 (by decide)⟩

end Config

end SoftwareSwitches.Eal
