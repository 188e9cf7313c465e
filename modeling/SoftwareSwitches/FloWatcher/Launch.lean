import Mathlib.Data.List.Nodup
import Mathlib.Tactic.SplitIfs

/-!
# Starting the polling lcores

`main` walks over the slave lcores, launches `lcore_main` on each with the next
queue id, and leaves the loop after the id of the last configured queue.
-/

namespace SoftwareSwitches.FloWatcher

def rxRings : ℕ := 1

/-- The `RTE_LCORE_FOREACH_SLAVE` loop of `main`, from the current queue id: the
queue id and lcore of every launch, in order. -/
def launchLoop (rings : ℕ) : List ℕ → ℕ → List (ℕ × ℕ)
  | [], _ => []
  | lcore :: slaves, queueId =>
    (queueId, lcore) ::
      if queueId + 1 = rings then [] else launchLoop rings slaves (queueId + 1)

/-! ## Which queues are polled -/

structure Lcores where
  master : ℕ
  slaves : List ℕ
  increasing : slaves.Pairwise (· < ·)
  master_notMem : master ∉ slaves

def launched (rings : ℕ) (lcores : Lcores) : List (ℕ × ℕ) :=
  launchLoop rings lcores.slaves 0

theorem map_fst_launchLoop {rings queueId : ℕ} (h : queueId < rings) (slaves : List ℕ) :
    (launchLoop rings slaves queueId).map Prod.fst =
      List.range' queueId (min (rings - queueId) slaves.length) := by
  induction slaves generalizing queueId with
  | nil => simp [launchLoop]
  | cons lcore slaves ih =>
      unfold launchLoop
      have hcount : min (rings - queueId) (slaves.length + 1) =
          min (rings - (queueId + 1)) slaves.length + 1 := by omega
      rw [List.length_cons, hcount, List.range'_succ, List.map_cons]
      split_ifs with hlast
      · have hnone : rings - (queueId + 1) = 0 := by omega
        simp [hnone]
      · rw [ih (by omega)]

theorem map_snd_launchLoop {rings queueId : ℕ} (h : queueId < rings) (slaves : List ℕ) :
    (launchLoop rings slaves queueId).map Prod.snd = slaves.take (rings - queueId) := by
  induction slaves generalizing queueId with
  | nil => simp [launchLoop]
  | cons lcore slaves ih =>
      unfold launchLoop
      have hcount : rings - queueId = rings - (queueId + 1) + 1 := by omega
      rw [hcount, List.take_succ_cons, List.map_cons]
      split_ifs with hlast
      · have hnone : rings - (queueId + 1) = 0 := by omega
        simp [hnone]
      · rw [ih (by omega)]

/-- Every configured queue is polled by exactly one slave of its own. -/
structure PollsEveryQueue (rings : ℕ) (lcores : Lcores) : Prop where
  ids_nodup : ((launched rings lcores).map Prod.fst).Nodup
  lcores_nodup : ((launched rings lcores).map Prod.snd).Nodup
  onSlaves : ∀ launch ∈ launched rings lcores, launch.2 ∈ lcores.slaves
  allQueues : ∀ id < rings, ∃ lcore, (id, lcore) ∈ launched rings lcores

/-- The queues are all polled exactly if there are as many slaves as queues. -/
theorem pollsEveryQueue_iff (rings : ℕ) (hrings : 1 ≤ rings) (lcores : Lcores) :
    PollsEveryQueue rings lcores ↔ rings ≤ lcores.slaves.length := by
  have hids : (launched rings lcores).map Prod.fst =
      List.range' 0 (min rings lcores.slaves.length) := map_fst_launchLoop hrings _
  have hlcores : (launched rings lcores).map Prod.snd = lcores.slaves.take rings :=
    map_snd_launchLoop hrings _
  constructor
  · intro hpolls
    obtain ⟨lcore, hlast⟩ := hpolls.allQueues (rings - 1) (by omega)
    have hmem := List.mem_map_of_mem (f := Prod.fst) hlast
    rw [hids] at hmem
    simp at hmem
    omega
  · intro henough
    constructor
    case ids_nodup =>
      rw [hids]
      exact List.nodup_range'
    case lcores_nodup =>
      rw [hlcores]
      exact (lcores.increasing.imp Nat.ne_of_lt).sublist (List.take_sublist _ _)
    case onSlaves =>
      intro launch hlaunch
      have hmem := List.mem_map_of_mem (f := Prod.snd) hlaunch
      rw [hlcores] at hmem
      exact List.mem_of_mem_take hmem
    case allQueues =>
      intro id hid
      have hmem : id ∈ (launched rings lcores).map Prod.fst := by
        rw [hids]
        simp
        omega
      obtain ⟨⟨id', lcore⟩, hlaunch, rfl⟩ := List.mem_map.mp hmem
      exact ⟨lcore, hlaunch⟩

theorem pollsEveryQueue_two :
    1 ≤ 2 ∧ PollsEveryQueue 2 ⟨0, [1, 2, 3], by decide, by decide⟩ :=
  ⟨by decide, (pollsEveryQueue_iff 2 (by decide) _).mpr (by decide)⟩

theorem not_pollsEveryQueue_no_slave :
    ¬ PollsEveryQueue rxRings ⟨0, [], by decide, by decide⟩ := by
  intro hpolls
  obtain ⟨lcore, hlaunch⟩ := hpolls.allQueues 0 (by decide)
  exact absurd hlaunch (by simp [launched, launchLoop])

end SoftwareSwitches.FloWatcher
