import SoftwareSwitches.Eal.Calls

/-!
# From `main` to the polling loops

`rte_eal_init` first has every slave lcore run `sync_func` and waits for all of them;
then `main` launches `lcore_main` in its loop over the slaves.  The two together, under
every interleaving with the slave threads.
-/

namespace SoftwareSwitches.Startup

open Eal Lib.Execution
open FloWatcher (launched rxRings map_snd_launchLoop)

inductive Fn
  | syncFunc
  | lcoreMain
deriving DecidableEq, Repr

variable {cfg : Config} {coreRole : ℕ → Role} {s t : State Fn}

/-- The launches of `main`: the queue id goes into the `void *`. -/
def mainCalls (launches : List (ℕ × ℕ)) : List (Call Fn) :=
  launches.map fun launch => .remoteLaunch (some .lcoreMain) launch.1 launch.2

/-- What the master does from the creation of the threads to the loop of `main` on the
timer. -/
def startCalls (cfg : Config) (rings : ℕ) : List (Call Fn) :=
  .mpRemoteLaunch (some .syncFunc) 0 false :: .mpWaitLcore ::
    mainCalls (launched rings cfg.lcores)

def launchedOn (done : List (ℕ × ℕ)) (id : ℕ) : List (Option Fn × ℕ) :=
  (some .syncFunc, 0) ::
    (done.filter (fun launch => launch.2 = id)).map fun launch => (some .lcoreMain, launch.1)

theorem launchedOn_append_singleton (done : List (ℕ × ℕ)) (queueId lcore : ℕ) :
    launchedOn (done ++ [(queueId, lcore)]) =
      extend (launchedOn done) lcore (some .lcoreMain, queueId) := by
  funext id
  unfold extend launchedOn
  by_cases hid : id = lcore
  · simp [hid]
  · simp [hid, Ne.symm hid]

inductive Starting (cfg : Config) (rings : ℕ) : List (Call Fn) → State Fn → Prop
  | boot {s : State Fn} (hpc : s.master = .app 0) (hready : Ready cfg.rteLcoreForeachSlave s)
      (hh : History cfg (fun _ => []) s) : Starting cfg rings (startCalls cfg rings) s
  | sync {s : State Fn} (h : MpLaunch cfg (some .syncFunc) 0 false (fun _ => []) True s) :
      Starting cfg rings (.mpWaitLcore :: mainCalls (launched rings cfg.lcores)) s
  | collect {s : State Fn} (h : MpWait cfg (launchedOn []) s) :
      Starting cfg rings (mainCalls (launched rings cfg.lcores)) s
  | launch {s : State Fn} (done : List (ℕ × ℕ)) (queueId lcore : ℕ) (rest : List (ℕ × ℕ))
      (hsplit : launched rings cfg.lcores = done ++ (queueId, lcore) :: rest)
      (hl : Launching cfg (some .lcoreMain) queueId lcore (launchedOn done)
        (rest.map Prod.snd) s) (htodo : s.todo = []) :
      Starting cfg rings (mainCalls rest) s
  | between {s : State Fn} (done rest : List (ℕ × ℕ)) (result : ℤ)
      (hsplit : launched rings cfg.lcores = done ++ rest) (hpc : s.master = .app result)
      (hready : Ready (rest.map Prod.snd) s) (hh : History cfg (launchedOn done) s) :
      Starting cfg rings (mainCalls rest) s

theorem launched_lcores (cfg : Config) {rings : ℕ} (hrings : 1 ≤ rings) :
    (launched rings cfg.lcores).map Prod.snd = cfg.rteLcoreForeachSlave.take rings :=
  map_snd_launchLoop hrings _

theorem rest_lcores {rings : ℕ} (hrings : 1 ≤ rings) {done : List (ℕ × ℕ)} {queueId lcore : ℕ}
    {rest : List (ℕ × ℕ)}
    (hsplit : launched rings cfg.lcores = done ++ (queueId, lcore) :: rest) :
    (∀ id ∈ lcore :: rest.map Prod.snd, id ∈ cfg.rteLcoreForeachSlave) ∧
      lcore ∉ rest.map Prod.snd := by
  have hlcores := launched_lcores cfg hrings
  rw [hsplit, List.map_append, List.map_cons] at hlcores
  constructor
  · intro id hid
    apply List.mem_of_mem_take (i := rings)
    rw [← hlcores]
    exact List.mem_append_right _ hid
  · have hnodup : (cfg.rteLcoreForeachSlave.take rings).Nodup :=
      (slaves_nodup cfg).sublist (List.take_sublist _ _)
    rw [← hlcores] at hnodup
    exact (List.nodup_cons.mp (List.nodup_append.mp hnodup).2.1).1

theorem Starting.quiet {rings : ℕ} (hrings : 1 ≤ rings) {cs : List (Call Fn)}
    {a : Action Fn} (hinv : Inv cfg s) (h : Starting cfg rings cs s)
    (hquiet : ∀ c, a ≠ .call c) (hstep : step cfg coreRole s a = some t) :
    Starting cfg rings cs t := by
  cases h with
  | boot hpc hready hh =>
      rcases quiet_cases hinv hquiet hstep with hmoves | ⟨ret, g, arg', hpc', rfl⟩ | hu
      · simp [masterStep_app hpc] at hmoves
      · simp [hpc] at hpc'
      · refine .boot (by rw [hu.master, hpc]) (hu.ready ?_ hready) (hu.history hh)
        intro j hj
        exact ⟨hj, Or.inl (by rw [hpc, MasterPc.view_app])⟩
  | sync h => exact .sync (h.quiet hinv hquiet hstep)
  | collect h => exact .collect (h.quiet hinv hquiet hstep)
  | launch done queueId lcore rest hsplit hl htodo =>
      obtain ⟨hslaves, hnot⟩ := rest_lcores hrings hsplit
      rcases quiet_cases hinv hquiet hstep with hmoves | ⟨ret, g, arg', hpc', rfl⟩ | hu
      · rcases hl.step hnot hmoves with ⟨hl', htodo'⟩ | ⟨hmaster, htodo', hready, hh⟩
        · exact .launch done queueId lcore rest hsplit hl' (by rw [htodo', htodo])
        · rw [← launchedOn_append_singleton] at hh
          simp only [State.resume, htodo] at hmaster
          exact .between (done ++ [(queueId, lcore)]) rest 0 (by simp [hsplit]) hmaster hready hh
      · cases hl with
        | check hpc => simp [hpc] at hpc'
        | underway hpc => simp [hpc', InLaunch] at hpc
      · exact .launch done queueId lcore rest hsplit (hl.undisturbed hslaves hnot hu)
          (by rw [hu.todo, htodo])
  | between done rest result hsplit hpc hready hh =>
      rcases quiet_cases hinv hquiet hstep with hmoves | ⟨ret, g, arg', hpc', rfl⟩ | hu
      · simp [masterStep_app hpc] at hmoves
      · simp [hpc] at hpc'
      · refine .between done rest result hsplit (by rw [hu.master, hpc]) (hu.ready ?_ hready)
          (hu.history hh)
        intro j hj
        refine ⟨?_, Or.inl (by rw [hpc, MasterPc.view_app])⟩
        apply List.mem_of_mem_take (i := rings)
        rw [← launched_lcores cfg hrings, hsplit, List.map_append]
        exact List.mem_append_right _ hj

theorem mainCalls_eq_cons {launches : List (ℕ × ℕ)} {c : Call Fn} {cs : List (Call Fn)}
    (h : mainCalls launches = c :: cs) :
    ∃ queueId lcore rest, launches = (queueId, lcore) :: rest ∧
      c = .remoteLaunch (some .lcoreMain) queueId lcore ∧ cs = mainCalls rest := by
  cases launches with
  | nil => cases h
  | cons launch rest =>
      cases h
      exact ⟨launch.1, launch.2, rest, rfl, rfl, rfl⟩

theorem Starting.next {rings : ℕ} {done launches : List (ℕ × ℕ)} {c : Call Fn}
    {cs : List (Call Fn)} (hsplit : launched rings cfg.lcores = done ++ launches)
    (hready : Ready (launches.map Prod.snd) s) (hh : History cfg (launchedOn done) s)
    (hcs : mainCalls launches = c :: cs) : Starting cfg rings cs (s.call cfg c) := by
  obtain ⟨queueId, lcore, rest, rfl, rfl, rfl⟩ := mainCalls_eq_cons hcs
  exact .launch done queueId lcore rest hsplit (.check rfl hready hh) rfl

theorem Starting.call {rings : ℕ} (hrings : 1 ≤ rings) {c : Call Fn} {cs : List (Call Fn)}
    {result : ℤ} (h : Starting cfg rings (c :: cs) s) (happ : s.master = .app result) :
    Starting cfg rings cs (s.call cfg c) := by
  generalize hcs : c :: cs = calls at h
  cases h with
  | boot hpc hready hh =>
      cases hcs
      exact .sync (.check [] cfg.rteLcoreForeachSlave rfl rfl rfl (by simp [Ready])
        (fun _ => hready) hh)
  | sync h =>
      cases hcs
      apply Starting.collect
      cases h with
      | started hpc htodo hh =>
          apply MpWait.start
          intro j hj
          simpa [extendAll, hj, launchedOn] using hh j hj
      | busy hpc htodo hnot => exact absurd trivial hnot
      | check done rest hsplit hpc => simp [happ] at hpc
      | launch done id rest hsplit hl =>
          cases hl with
          | check hpc => simp [happ] at hpc
          | underway hpc => simp [happ, InLaunch] at hpc
      | onMaster hpc => simp [happ] at hpc
  | collect h =>
      cases h with
      | finished hpc htodo hready hh =>
          have hready' : Ready ((launched rings cfg.lcores).map Prod.snd) s := by
            intro id hid
            rw [launched_lcores cfg hrings] at hid
            exact hready id (List.mem_of_mem_take hid)
          exact Starting.next (List.nil_append _).symm hready' hh hcs.symm
      | collect done id rest hsplit hpc => simp [happ, InWait] at hpc
  | launch done queueId lcore rest hsplit hl htodo =>
      cases hl with
      | check hpc => simp [happ] at hpc
      | underway hpc => simp [happ, InLaunch] at hpc
  | between done rest result' hsplit hpc hready hh => exact Starting.next hsplit hready hh hcs.symm

/-- However the threads interleave, when `main` reaches its timer loop no launch has been
refused: every slave lcore has been given `sync_func` and then `lcore_main` with exactly
the queue ids of `main`'s loop for it, and has called them in this order, the last one
perhaps not yet. -/
theorem main_launches_lcoreMain (cfg : Config) (coreRole : ℕ → Role) (rings : ℕ)
    (hrings : 1 ≤ rings) (acts : List (Action Fn)) (s : State Fn)
    (hrun : exec (step cfg coreRole) acts State.init = some s)
    (hcalls : calls acts = startCalls cfg rings) (result : ℤ) (happ : s.master = .app result)
    (id : ℕ) (hid : id ∈ cfg.rteLcoreForeachSlave) :
    (s.lcore id).launches = launchedOn (launched rings cfg.lcores) id ∧
      ∃ owed, (s.lcore id).launches = (s.lcore id).called ++ owed ∧ owed.length ≤ 1 := by
  have hboot : Starting cfg rings (calls acts) State.init := by
    rw [hcalls]
    exact .boot rfl (fun _ _ => rfl) (fun _ _ => rfl)
  obtain ⟨hinv, hend⟩ := exec_program (P := Starting cfg rings)
    (fun _ _ _ _ hinv h hquiet hstep => h.quiet hrings hinv hquiet hstep)
    (fun _ _ _ _ h happ => h.call hrings happ) (inv_init cfg) hboot hrun
  refine ⟨?_, (hinv id hid).owed⟩
  generalize hcs : ([] : List (Call Fn)) = cs at hend
  cases hend with
  | boot => cases hcs
  | sync => cases hcs
  | collect h =>
      have hnone : launched rings cfg.lcores = [] := by simpa [mainCalls] using hcs.symm
      rw [hnone]
      cases h with
      | finished hpc htodo hready hh => exact hh id hid
      | collect done id rest hsplit hpc => simp [happ, InWait] at hpc
  | launch done queueId lcore rest hsplit hl htodo =>
      cases hl with
      | check hpc => simp [happ] at hpc
      | underway hpc => simp [happ, InLaunch] at hpc
  | between done rest result' hsplit hpc hready hh =>
      have hnone : rest = [] := by simpa [mainCalls] using hcs.symm
      rw [hsplit, hnone, List.append_nil]
      exact hh id hid

def syncActs (id : ℕ) : List (Action Fn) :=
  List.flatten [List.replicate 3 (.slave id), [.master], List.replicate 3 (.slave id),
    [.slaveReturns id 0], List.replicate 2 (.slave id)]

/-- One run on lcores 2 and 5: both run `sync_func`, then lcore 2 gets queue 0. -/
def startActs : List (Action Fn) :=
  List.flatten [[.call (.mpRemoteLaunch (some .syncFunc) 0 false)], List.replicate 7 .master,
    syncActs 2, List.replicate 4 .master, syncActs 5, [.call .mpWaitLcore],
    List.replicate 10 .master, [.call (.remoteLaunch (some .lcoreMain) 0 2)],
    List.replicate 4 .master, List.replicate 3 (.slave 2), [.master]]

theorem main_launches_lcoreMain_startActs :
    ∃ s, exec (step Config.threeOfEight fun _ => .rte) startActs State.init = some s ∧
      (s.lcore 2).launches = [(some .syncFunc, 0), (some .lcoreMain, 0)] ∧
      (s.lcore 5).launches = [(some .syncFunc, 0)] := by
  have hmaster : (exec (step Config.threeOfEight fun _ => .rte) startActs State.init).map
      (fun t => t.master) = some (.app 0) := by decide +kernel
  obtain ⟨s, hrun, hs⟩ := Option.map_eq_some_iff.mp hmaster
  have hcalls : calls startActs = startCalls Config.threeOfEight rxRings := by decide +kernel
  have hlaunches := main_launches_lcoreMain _ _ rxRings (by decide) startActs s hrun hcalls 0 hs
  refine ⟨s, hrun, ?_, ?_⟩
  · rw [(hlaunches 2 (by decide +kernel)).1]
    decide +kernel
  · rw [(hlaunches 5 (by decide +kernel)).1]
    decide +kernel

end SoftwareSwitches.Startup
