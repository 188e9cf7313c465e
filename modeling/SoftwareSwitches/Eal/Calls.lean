import SoftwareSwitches.Eal.Launch

/-!
# Whole calls in every interleaving

What a call of the application has done when it returns, whatever the slave threads
did meanwhile.  Between two accesses of the master the other threads can only move
lcores that are not at rest; the calls are followed on the launch histories and on the
lcores known to be waiting.
-/

namespace SoftwareSwitches.Eal

open Lib.Execution

variable {F : Type*} {cfg : Config} {coreRole : ℕ → Role} {s t : State F}

/-! ## What the other threads leave alone -/

theorem slaveStep_frame {role : Role} {l l' : Lcore F} (hstep : slaveStep role l = .moves l') :
    l'.launches = l.launches ∧
      (role ≠ .service → l.state ≠ .wait → l'.state ≠ .wait) := by
  cases hpc : l.pc with
  | readCommand =>
      simp only [slaveStep, hpc] at hstep
      split at hstep
      · cases hstep
      · cases hstep
        exact ⟨rfl, fun _ hstate => hstate⟩
  | storeRunning =>
      simp only [slaveStep, hpc] at hstep
      cases hstep
      exact ⟨rfl, fun _ _ => by simp⟩
  | writeAck =>
      simp only [slaveStep, hpc] at hstep
      cases hstep
      exact ⟨rfl, fun _ hstate => hstate⟩
  | checkFunction =>
      simp only [slaveStep, hpc] at hstep
      split at hstep
      · cases hstep
      · cases hstep
        exact ⟨rfl, fun _ hstate => hstate⟩
  | loadArg =>
      simp only [slaveStep, hpc] at hstep
      cases hstep
      exact ⟨rfl, fun _ hstate => hstate⟩
  | loadFunction fctArg =>
      simp only [slaveStep, hpc] at hstep
      split at hstep
      · cases hstep
      · cases hstep
        exact ⟨rfl, fun _ hstate => hstate⟩
  | inFunction f fctArg => simp [slaveStep, hpc] at hstep
  | storeRet ret =>
      simp only [slaveStep, hpc] at hstep
      cases hstep
      exact ⟨rfl, fun _ hstate => hstate⟩
  | storeState =>
      simp only [slaveStep, hpc] at hstep
      cases hstep
      exact ⟨rfl, fun hrole _ => by simp [hrole]⟩

theorem functionReturns_frame {ret : ℤ} {l l' : Lcore F}
    (hstep : functionReturns ret l = .moves l') :
    l'.launches = l.launches ∧ l'.state = l.state := by
  unfold functionReturns at hstep
  split at hstep
  · cases hstep
    exact ⟨rfl, rfl⟩
  · cases hstep

theorem Phase.blocked {v : View F} {l l' : Lcore F} (h : Phase v l)
    (hview : v = .away ∨ v = .collect) (hstate : l.state = .wait) (role : Role) (ret : ℤ) :
    Eal.slaveStep role l ≠ .moves l' ∧ Eal.functionReturns ret l ≠ .moves l' := by
  have hrest : l.pc = .readCommand ∧ l.master2slave = 0 := by
    rcases hview with rfl | rfl
    · obtain ⟨hpc, hm2s, -⟩ := h.rest (by simp [hstate])
      exact ⟨hpc, hm2s⟩
    · obtain ⟨hpc, hm2s, -⟩ := h.settled.1.rest (by simp [hstate])
      exact ⟨hpc, hm2s⟩
  simp [Eal.slaveStep, Eal.functionReturns, hrest]

theorem Phase.launches_ne_nil {v : View F} {l : Lcore F} (h : Phase v l)
    (hstate : l.state ≠ .wait) : l.launches ≠ [] := by
  have hcalled : l.calls ≠ [] → l.launches = l.called → l.launches ≠ [] := by
    intro hcalls heq hnone
    rw [heq, Lcore.called, List.map_eq_nil_iff] at hnone
    exact hcalls hnone
  cases h with
  | resting hview hpc hm2s hs2m hrest h => exact hcalled (h.started hstate) h.called
  | storeF hpc hm2s hs2m hwait h => simp [h.called]
  | storeArg hpc hm2s hs2m hwait h => simp [h.called]
  | write hpc hm2s hs2m hwait h => simp [h.called]
  | sent hpc hm2s hs2m hwait h => simp [h.called]
  | taken hpc hm2s hs2m h => simp [h.called]
  | acking hpc hm2s hs2m hrunning h => simp [h.called]
  | before hack hpc hm2s hrunning h => simp [h.called]
  | during hack hpc hm2s hrunning heq hreturns =>
      apply hcalled _ heq
      intro hnone
      simp [hnone] at hreturns
  | after hack hpc hm2s hrunning heq hreturns hlast =>
      apply hcalled _ heq
      intro hnone
      have hempty : l.returns = [] := List.eq_nil_of_length_eq_zero (by simp [hreturns, hnone])
      simp [hempty] at hlast
  | leaving hack hpc hm2s hrunning h => exact hcalled (h.started hstate) h.called
  | early hpc hm2s hs2m hrest h => exact hcalled (h.started hstate) h.called

structure Undisturbed (cfg : Config) (coreRole : ℕ → Role) (s t : State F) : Prop where
  master : t.master = s.master
  todo : t.todo = s.todo
  launches : ∀ j, (t.lcore j).launches = (s.lcore j).launches
  waiting : ∀ j ∈ cfg.rteLcoreForeachSlave,
    s.master.view j = .away ∨ s.master.view j = .collect → (s.lcore j).state = .wait →
      t.lcore j = s.lcore j
  notWaiting : ∀ j, coreRole j ≠ .service → (s.lcore j).state ≠ .wait →
    (t.lcore j).state ≠ .wait

theorem Undisturbed.setLcore {id : ℕ} {l : Lcore F}
    (hlaunches : l.launches = (s.lcore id).launches)
    (hwaiting : s.master.view id = .away ∨ s.master.view id = .collect →
      (s.lcore id).state ≠ .wait)
    (hnot : coreRole id ≠ .service → (s.lcore id).state ≠ .wait → l.state ≠ .wait) :
    Undisturbed cfg coreRole s (s.setLcore id l) := by
  refine ⟨rfl, rfl, ?_, ?_, ?_⟩
  · intro j
    rw [setLcore_lcore]
    split
    · rename_i hj
      rw [hj, hlaunches]
    · rfl
  · intro j _ hview hstate
    rw [setLcore_lcore, if_neg]
    rintro rfl
    exact hwaiting hview hstate
  · intro j hrole hstate
    rw [setLcore_lcore]
    split
    · rename_i hj
      subst hj
      exact hnot hrole hstate
    · exact hstate

theorem quiet_cases {a : Action F} (hinv : Inv cfg s) (hquiet : ∀ c, a ≠ .call c)
    (hstep : step cfg coreRole s a = some t) :
    masterStep cfg s = .moves t ∨
      (∃ ret f arg, s.master = .masterFunction (some f) arg ∧
        t = { s with master := .masterStoreRet ret }) ∨
      Undisturbed cfg coreRole s t := by
  cases (steps_of_step hstep).2 with
  | @call c => exact absurd rfl (hquiet c)
  | master h => exact Or.inl h
  | masterReturns h => exact Or.inr (Or.inl ⟨_, _, _, h, rfl⟩)
  | slave hid h =>
      refine Or.inr (Or.inr (.setLcore (slaveStep_frame h).1 ?_ (slaveStep_frame h).2))
      intro hview hstate
      exact ((hinv _ hid).blocked hview hstate _ 0).1 h
  | slaveReturns hid h =>
      refine Or.inr (Or.inr (.setLcore (functionReturns_frame h).1 ?_ ?_))
      · intro hview hstate
        exact ((hinv _ hid).blocked hview hstate .rte _).2 h
      · intro _ hstate
        rw [(functionReturns_frame h).2]
        exact hstate
  | masterPanics h =>
      exact Or.inr (Or.inr ⟨rfl, rfl, fun _ => rfl, fun _ _ _ _ => rfl, fun _ _ h => h⟩)
  | slavePanics hid h =>
      exact Or.inr (Or.inr ⟨rfl, rfl, fun _ => rfl, fun _ _ _ _ => rfl, fun _ _ h => h⟩)

theorem quiet_run {P : State F → Prop} {quiet : List (Action F)}
    (hP : ∀ s a t, Inv cfg s → P s → (∀ c, a ≠ .call c) → step cfg coreRole s a = some t → P t)
    (hquiet : ∀ c, Action.call c ∉ quiet) (hinv : Inv cfg s) (hs : P s)
    (hrun : exec (step cfg coreRole) quiet s = some t) : Inv cfg t ∧ P t := by
  apply exec_invariant_of_mem (P := fun s => Inv cfg s ∧ P s) _ ⟨hinv, hs⟩ hrun
  intro s a t ha hs hstep
  refine ⟨inv_step hs.1 hstep, hP s a t hs.1 hs.2 ?_ hstep⟩
  intro c hc
  exact hquiet c (hc ▸ ha)

theorem call_of_step {c : Call F} (hstep : step cfg coreRole s (.call c) = some t) :
    (∃ result, s.master = .app result) ∧ t = s.call cfg c := by
  cases (steps_of_step hstep).2 with
  | call happ hlegal => exact ⟨⟨_, happ⟩, rfl⟩

/-! ## One launch -/

def History (cfg : Config) (h : ℕ → List (Option F × ℕ)) (s : State F) : Prop :=
  ∀ j ∈ cfg.rteLcoreForeachSlave, (s.lcore j).launches = h j

def Ready (ids : List ℕ) (s : State F) : Prop :=
  ∀ j ∈ ids, (s.lcore j).state = .wait

def extend (h : ℕ → List (Option F × ℕ)) (id : ℕ) (x : Option F × ℕ) :
    ℕ → List (Option F × ℕ) :=
  fun j => if j = id then h j ++ [x] else h j

theorem Undisturbed.history {h : ℕ → List (Option F × ℕ)} (hu : Undisturbed cfg coreRole s t)
    (hh : History cfg h s) : History cfg h t := by
  intro j hj
  rw [hu.launches, hh j hj]

theorem Undisturbed.ready {ids : List ℕ} (hu : Undisturbed cfg coreRole s t)
    (hids : ∀ j ∈ ids, j ∈ cfg.rteLcoreForeachSlave ∧
      (s.master.view j = .away ∨ s.master.view j = .collect))
    (hready : Ready ids s) : Ready ids t := by
  intro j hj
  rw [hu.waiting j (hids j hj).1 (hids j hj).2 (hready j hj)]
  exact hready j hj

def InLaunch (id : ℕ) : MasterPc F → Prop
  | .launchStoreF _ _ i => i = id
  | .launchStoreArg _ i => i = id
  | .launchWrite i => i = id
  | .launchReadAck i => i = id
  | _ => False

theorem InLaunch.view {id j : ℕ} {m : MasterPc F} (h : InLaunch id m) (hj : j ≠ id) :
    m.view j = .away := by
  cases m <;> simp_all [InLaunch, MasterPc.view, eq_comm]

/-- A launch of `f` on lcore `id`, while the lcores `ready` wait for theirs. -/
inductive Launching (cfg : Config) (f : Option F) (arg id : ℕ)
    (h : ℕ → List (Option F × ℕ)) (ready : List ℕ) (s : State F) : Prop
  | check (hpc : s.master = .launchCheck f arg id) (hready : Ready (id :: ready) s)
      (hh : History cfg h s)
  | underway (hpc : InLaunch id s.master) (hready : Ready ready s)
      (hh : History cfg (extend h id (f, arg)) s)

theorem Launching.undisturbed {f : Option F} {arg id : ℕ} {h : ℕ → List (Option F × ℕ)}
    {ready : List ℕ} (hl : Launching cfg f arg id h ready s)
    (hids : ∀ j ∈ id :: ready, j ∈ cfg.rteLcoreForeachSlave) (hnot : id ∉ ready)
    (hu : Undisturbed cfg coreRole s t) : Launching cfg f arg id h ready t := by
  cases hl with
  | check hpc hready hh =>
      refine .check (by rw [hu.master, hpc]) (hu.ready ?_ hready) (hu.history hh)
      intro j hj
      exact ⟨hids j hj, Or.inl (by rw [hpc]; rfl)⟩
  | underway hpc hready hh =>
      refine .underway (by rw [hu.master]; exact hpc) (hu.ready ?_ hready) (hu.history hh)
      intro j hj
      exact ⟨hids j (List.mem_cons_of_mem _ hj),
        Or.inl (hpc.view (fun hji => hnot (hji ▸ hj)))⟩

theorem InLaunch.step {id : ℕ} (h : InLaunch id s.master)
    (hstep : masterStep cfg s = .moves t) :
    (InLaunch id t.master ∧ t.todo = s.todo ∨
        t.master = (s.resume 0).master ∧ t.todo = (s.resume 0).todo) ∧
      (∀ j, (t.lcore j).launches = (s.lcore j).launches) ∧
      (∀ j, j ≠ id → t.lcore j = s.lcore j) := by
  cases hpc : s.master with
  | launchStoreF f arg i =>
      simp only [masterStep, hpc] at hstep
      simp only [hpc, InLaunch] at h
      cases hstep
      refine ⟨Or.inl ⟨h, rfl⟩, ?_, ?_⟩
      · intro j
        by_cases hj : j = i <;> simp [hj]
      · intro j hj
        simp [h, hj]
  | launchStoreArg arg i =>
      simp only [masterStep, hpc] at hstep
      simp only [hpc, InLaunch] at h
      cases hstep
      refine ⟨Or.inl ⟨h, rfl⟩, ?_, ?_⟩
      · intro j
        by_cases hj : j = i <;> simp [hj]
      · intro j hj
        simp [h, hj]
  | launchWrite i =>
      simp only [masterStep, hpc] at hstep
      simp only [hpc, InLaunch] at h
      cases hstep
      refine ⟨Or.inl ⟨h, rfl⟩, ?_, ?_⟩
      · intro j
        by_cases hj : j = i <;> simp [hj]
      · intro j hj
        simp [h, hj]
  | launchReadAck i =>
      simp only [masterStep, hpc] at hstep
      simp only [hpc, InLaunch] at h
      split at hstep
      · cases hstep
      · cases hstep
        refine ⟨Or.inr ?_, ?_, ?_⟩
        · unfold State.resume
          simp only [setLcore_todo]
          split <;> simp
        · intro j
          by_cases hj : j = i <;> simp [hj]
        · intro j hj
          simp [h, hj]
  | app result => simp [hpc, InLaunch] at h
  | launchCheck f arg i => simp [hpc, InLaunch] at h
  | waitCheck i => simp [hpc, InLaunch] at h
  | waitLoopWait i => simp [hpc, InLaunch] at h
  | waitLoopFinished i => simp [hpc, InLaunch] at h
  | waitStore i => simp [hpc, InLaunch] at h
  | waitLoadRet i => simp [hpc, InLaunch] at h
  | mpCheck f arg callMaster rest => simp [hpc, InLaunch] at h
  | masterFunction f arg => simp [hpc, InLaunch] at h
  | masterStoreRet ret => simp [hpc, InLaunch] at h
  | masterStoreState => simp [hpc, InLaunch] at h

/-- A launch on a waiting lcore is never refused: the master carries it through and then
goes on with result 0. -/
theorem Launching.step {f : Option F} {arg id : ℕ} {h : ℕ → List (Option F × ℕ)}
    {ready : List ℕ} (hl : Launching cfg f arg id h ready s) (hnot : id ∉ ready)
    (hstep : masterStep cfg s = .moves t) :
    (Launching cfg f arg id h ready t ∧ t.todo = s.todo) ∨
      (t.master = (s.resume 0).master ∧ t.todo = (s.resume 0).todo ∧ Ready ready t ∧
        History cfg (extend h id (f, arg)) t) := by
  cases hl with
  | check hpc hready hh =>
      simp only [masterStep, hpc, hready id (by simp), if_true] at hstep
      cases hstep
      refine Or.inl ⟨.underway rfl ?_ ?_, rfl⟩
      · intro j hj
        have hji : j ≠ id := fun hji => hnot (hji ▸ hj)
        simpa [hji] using hready j (List.mem_cons_of_mem _ hj)
      · intro j hj
        by_cases hji : j = id
        · subst hji
          simp [extend, hh j hj]
        · simp [extend, hji, hh j hj]
  | underway hpc hready hh =>
      obtain ⟨hnext, hlaunches, hother⟩ := hpc.step hstep
      have hready' : Ready ready t := by
        intro j hj
        rw [hother j (fun hji => hnot (hji ▸ hj))]
        exact hready j hj
      have hh' : History cfg (extend h id (f, arg)) t := by
        intro j hj
        rw [hlaunches, hh j hj]
      rcases hnext with ⟨hin, htodo⟩ | ⟨hmaster, htodo⟩
      · exact Or.inl ⟨.underway hin hready' hh', htodo⟩
      · exact Or.inr ⟨hmaster, htodo, hready', hh'⟩

/-! ## Launching on all slave lcores -/

def extendAll (h : ℕ → List (Option F × ℕ)) (ids : List ℕ) (x : Option F × ℕ) :
    ℕ → List (Option F × ℕ) :=
  fun j => if j ∈ ids then h j ++ [x] else h j

theorem extendAll_append_singleton {h : ℕ → List (Option F × ℕ)} {ids : List ℕ} {id : ℕ}
    {x : Option F × ℕ} (hid : id ∉ ids) :
    extendAll h (ids ++ [id]) x = extend (extendAll h ids x) id x := by
  funext j
  unfold extend extendAll
  by_cases hj : j = id
  · subst hj
    simp [hid]
  · simp [hj]

theorem slaves_nodup (cfg : Config) : cfg.rteLcoreForeachSlave.Nodup :=
  cfg.lcores.increasing.imp Nat.ne_of_lt

def mpTail (f : Option F) (arg : ℕ) (callMaster : Bool) : List (Pending F) :=
  (if callMaster then [.callMaster f arg] else []) ++ [.done]

section MpLaunch

variable (cfg) (f : Option F) (arg : ℕ) (callMaster : Bool) (h : ℕ → List (Option F × ℕ))
  (allReady : Prop)

/-- `rte_eal_mp_remote_launch` from its start to after its return: in `check` the lcores
`done` have been seen waiting, in `launch` they have been launched; `allReady` says that
all lcores waited at the start. -/
inductive MpLaunch (s : State F) : Prop
  | check (done rest : List ℕ) (hsplit : cfg.rteLcoreForeachSlave = done ++ rest)
      (hpc : s.master = .mpCheck f arg callMaster rest) (htodo : s.todo = [])
      (hready : Ready done s) (hall : allReady → Ready rest s) (hh : History cfg h s)
  | launch (done : List ℕ) (id : ℕ) (rest : List ℕ)
      (hsplit : cfg.rteLcoreForeachSlave = done ++ id :: rest)
      (hl : Launching cfg f arg id (extendAll h done (f, arg)) rest s)
      (htodo : s.todo = rest.map (Pending.launch f arg) ++ mpTail f arg callMaster)
  | onMaster
      (hpc : s.master = .masterFunction f arg ∨ (∃ ret, s.master = .masterStoreRet ret) ∨
        s.master = .masterStoreState)
      (htodo : s.todo = [.done])
      (hh : History cfg (extendAll h cfg.rteLcoreForeachSlave (f, arg)) s)
  | started (hpc : s.master = .app 0) (htodo : s.todo = [])
      (hh : History cfg (extendAll h cfg.rteLcoreForeachSlave (f, arg)) s)
  | busy (hpc : s.master = .app (-EBUSY)) (htodo : s.todo = []) (hnot : ¬ allReady)
      (hh : History cfg h s)

variable {cfg f arg callMaster h allReady}

theorem MpLaunch.resume (done rest : List ℕ) {u : State F}
    (hsplit : cfg.rteLcoreForeachSlave = done ++ rest)
    (htodo : u.todo = rest.map (Pending.launch f arg) ++ mpTail f arg callMaster)
    (hmaster : s.master = (u.resume 0).master) (htodo' : s.todo = (u.resume 0).todo)
    (hready : Ready rest s) (hh : History cfg (extendAll h done (f, arg)) s) :
    MpLaunch cfg f arg callMaster h allReady s := by
  cases rest with
  | nil =>
      have hdone : done = cfg.rteLcoreForeachSlave := by simpa using hsplit.symm
      subst hdone
      cases callMaster with
      | false =>
          simp [State.resume, htodo, mpTail] at hmaster htodo'
          exact .started hmaster htodo' hh
      | true =>
          simp [State.resume, htodo, mpTail] at hmaster htodo'
          exact .onMaster (Or.inl hmaster) htodo' hh
  | cons id rest =>
      simp [State.resume, htodo] at hmaster htodo'
      exact .launch done id rest hsplit (.check hmaster hready hh) htodo'

theorem MpLaunch.undisturbed (hmp : MpLaunch cfg f arg callMaster h allReady s)
    (hu : Undisturbed cfg coreRole s t) : MpLaunch cfg f arg callMaster h allReady t := by
  cases hmp with
  | check done rest hsplit hpc htodo hready hall hh =>
      have hview : ∀ j, s.master.view j = .away := by
        intro j
        rw [hpc]
        rfl
      refine .check done rest hsplit (by rw [hu.master, hpc]) (by rw [hu.todo, htodo])
        (hu.ready ?_ hready) (fun hr => hu.ready ?_ (hall hr)) (hu.history hh)
      · intro j hj
        exact ⟨by simp [hsplit, hj], Or.inl (hview j)⟩
      · intro j hj
        exact ⟨by simp [hsplit, hj], Or.inl (hview j)⟩
  | launch done id rest hsplit hl htodo =>
      have hnodup := slaves_nodup cfg
      rw [hsplit] at hnodup
      refine .launch done id rest hsplit (hl.undisturbed ?_ ?_ hu) (by rw [hu.todo, htodo])
      · intro j hj
        rw [hsplit]
        exact List.mem_append_right _ hj
      · exact (List.nodup_cons.mp (List.nodup_append.mp hnodup).2.1).1
  | onMaster hpc htodo hh =>
      exact .onMaster (by rw [hu.master]; exact hpc) (by rw [hu.todo, htodo]) (hu.history hh)
  | started hpc htodo hh =>
      exact .started (by rw [hu.master, hpc]) (by rw [hu.todo, htodo]) (hu.history hh)
  | busy hpc htodo hnot hh =>
      exact .busy (by rw [hu.master, hpc]) (by rw [hu.todo, htodo]) hnot (hu.history hh)

theorem MpLaunch.masterStep (hmp : MpLaunch cfg f arg callMaster h allReady s)
    (hstep : masterStep cfg s = .moves t) : MpLaunch cfg f arg callMaster h allReady t := by
  cases hmp with
  | check done rest hsplit hpc htodo hready hall hh =>
      cases rest with
      | nil =>
          simp only [Eal.masterStep, hpc] at hstep
          cases hstep
          have hdone : done = cfg.rteLcoreForeachSlave := by simpa using hsplit.symm
          subst hdone
          apply MpLaunch.resume [] cfg.rteLcoreForeachSlave
            (u := { s with todo := mpTasks cfg f arg callMaster }) rfl
          · simp [mpTasks, mpTail]
          · rfl
          · rfl
          · intro j hj
            simpa using hready j hj
          · intro j hj
            simpa [extendAll] using hh j hj
      | cons id rest =>
          simp only [Eal.masterStep, hpc] at hstep
          split at hstep
          · rename_i hwait
            cases hstep
            refine .check (done ++ [id]) rest (by simp [hsplit]) rfl htodo ?_ ?_ hh
            · intro j hj
              rcases List.mem_append.mp hj with hdone | hid
              · exact hready j hdone
              · simpa [List.mem_singleton.mp hid] using hwait
            · intro hr j hj
              exact hall hr j (List.mem_cons_of_mem _ hj)
          · rename_i hwait
            cases hstep
            exact .busy rfl htodo (fun hr => hwait (hall hr id (by simp))) hh
  | launch done id rest hsplit hl htodo =>
      have hnodup := slaves_nodup cfg
      rw [hsplit] at hnodup
      have hid : id ∉ rest := (List.nodup_cons.mp (List.nodup_append.mp hnodup).2.1).1
      have hid' : id ∉ done := by
        intro hmem
        exact (List.nodup_append.mp hnodup).2.2 id hmem id (by simp) rfl
      rcases hl.step hid hstep with ⟨hl', htodo'⟩ | ⟨hmaster, htodo', hready, hh⟩
      · exact .launch done id rest hsplit hl' (by rw [htodo', htodo])
      · rw [← extendAll_append_singleton hid'] at hh
        exact MpLaunch.resume _ rest (by simp [hsplit]) htodo hmaster htodo' hready hh
  | onMaster hpc htodo hh =>
      have hmaster : ∀ j ∈ cfg.rteLcoreForeachSlave, j ≠ cfg.masterLcore :=
        fun j hj => (Config.mem_rteLcoreForeachSlave.mp hj).2.2
      rcases hpc with hpc | ⟨ret, hpc⟩ | hpc
      · cases f <;> simp [Eal.masterStep, hpc] at hstep
      · simp only [Eal.masterStep, hpc] at hstep
        cases hstep
        refine .onMaster (Or.inr (Or.inr rfl)) htodo ?_
        intro j hj
        simpa [hmaster j hj] using hh j hj
      · simp only [Eal.masterStep, hpc] at hstep
        cases hstep
        refine .started ?_ ?_ ?_
        · simp [State.resume, htodo]
        · simp [State.resume, htodo]
        · intro j hj
          simpa [hmaster j hj] using hh j hj
  | started hpc htodo hh => simp [masterStep_app hpc] at hstep
  | busy hpc htodo hnot hh => simp [masterStep_app hpc] at hstep

theorem MpLaunch.quiet {a : Action F} (hinv : Inv cfg s)
    (hmp : MpLaunch cfg f arg callMaster h allReady s) (hquiet : ∀ c, a ≠ .call c)
    (hstep : step cfg coreRole s a = some t) : MpLaunch cfg f arg callMaster h allReady t := by
  rcases quiet_cases hinv hquiet hstep with hmoves | ⟨ret, g, arg', hpc, rfl⟩ | hu
  · exact hmp.masterStep hmoves
  · cases hmp with
    | onMaster hpc' htodo hh => exact .onMaster (Or.inr (Or.inl ⟨ret, rfl⟩)) htodo hh
    | check done rest hsplit hpc' => simp [hpc] at hpc'
    | launch done id rest hsplit hl htodo =>
        cases hl with
        | check hpc' => simp [hpc] at hpc'
        | underway hpc' => simp [hpc, InLaunch] at hpc'
    | started hpc' => simp [hpc] at hpc'
    | busy hpc' => simp [hpc] at hpc'
  · exact hmp.undisturbed hu

theorem MpLaunch.start (cfg : Config) (s : State F) (f : Option F) (arg : ℕ)
    (callMaster : Bool) (h : ℕ → List (Option F × ℕ)) (hh : History cfg h s) :
    MpLaunch cfg f arg callMaster h (Ready cfg.rteLcoreForeachSlave s)
      (s.call cfg (.mpRemoteLaunch f arg callMaster)) :=
  .check [] cfg.rteLcoreForeachSlave rfl rfl rfl (by simp [Ready]) (fun hr => hr) hh

end MpLaunch

/-- `rte_eal_mp_remote_launch` is all or nothing: it returns 0 having launched the
function once on every slave lcore, or `-EBUSY` having launched it on none, and it never
refuses when all lcores wait.  Its launches cannot fail, though their results are not
looked at. -/
theorem mpRemoteLaunch_all_or_none (cfg : Config) (coreRole : ℕ → Role)
    (acts : List (Action F)) (s : State F)
    (hrun : exec (step cfg coreRole) acts State.init = some s) (f : Option F) (arg : ℕ)
    (callMaster : Bool) (quiet : List (Action F)) (hquiet : ∀ c, Action.call c ∉ quiet)
    (t : State F) (result : ℤ)
    (hcall : exec (step cfg coreRole) (.call (.mpRemoteLaunch f arg callMaster) :: quiet) s =
      some t)
    (happ : t.master = .app result) :
    ((result = 0 ∧ ∀ id ∈ cfg.rteLcoreForeachSlave,
        (t.lcore id).launches = (s.lcore id).launches ++ [(f, arg)]) ∨
      (result = -EBUSY ∧ ∀ id ∈ cfg.rteLcoreForeachSlave,
        (t.lcore id).launches = (s.lcore id).launches)) ∧
      ((∀ id ∈ cfg.rteLcoreForeachSlave, (s.lcore id).state = .wait) → result = 0) := by
  obtain ⟨u, hu, hrest⟩ := exec_cons_eq_some.mp hcall
  have hinv := inv_step (inv_of_run hrun) hu
  obtain ⟨-, rfl⟩ := call_of_step hu
  have hstart := MpLaunch.start cfg s f arg callMaster (fun j => (s.lcore j).launches)
    (fun _ _ => rfl)
  have hend := (quiet_run (fun _ _ _ hi hmp hq hstep => MpLaunch.quiet hi hmp hq hstep) hquiet
    hinv hstart hrest).2
  cases hend with
  | started hpc htodo hh =>
      have hzero : result = 0 := by simpa [happ] using hpc
      refine ⟨Or.inl ⟨hzero, ?_⟩, fun _ => hzero⟩
      intro id hid
      simpa [extendAll, hid] using hh id hid
  | busy hpc htodo hnot hh =>
      have hbusy : result = -EBUSY := by simpa [happ] using hpc
      exact ⟨Or.inr ⟨hbusy, hh⟩, fun hready => absurd hready hnot⟩
  | check done rest hsplit hpc => simp [happ] at hpc
  | launch done id rest hsplit hl htodo =>
      cases hl with
      | check hpc => simp [happ] at hpc
      | underway hpc => simp [happ, InLaunch] at hpc
  | onMaster hpc => simp [happ] at hpc

def mpQuiet : List (Action String) :=
  List.flatten [List.replicate 7 .master, List.replicate 3 (.slave 2),
    List.replicate 5 .master, List.replicate 3 (.slave 5), [.master]]

theorem mpRemoteLaunch_all_or_none_mpQuiet :
    ∃ t, exec (step Config.threeOfEight fun _ => .rte)
        (.call (.mpRemoteLaunch (some "f") 4 false) :: mpQuiet) State.init = some t ∧
      ∀ id ∈ Config.threeOfEight.rteLcoreForeachSlave,
        (t.lcore id).launches = [(some "f", 4)] := by
  have hmaster : (exec (step Config.threeOfEight fun _ => .rte)
      (.call (.mpRemoteLaunch (some "f") 4 false) :: mpQuiet) State.init).map
      (fun t => t.master) = some (.app 0) := by decide +kernel
  obtain ⟨t, hrun, ht⟩ := Option.map_eq_some_iff.mp hmaster
  refine ⟨t, hrun, ?_⟩
  rcases (mpRemoteLaunch_all_or_none _ _ [] State.init rfl (some "f") 4 false mpQuiet
    (by simp [mpQuiet]) t 0 hrun ht).1 with ⟨-, hall⟩ | ⟨hbusy, -⟩
  · exact hall
  · exact absurd hbusy (by decide)

/-! ## Waiting for one lcore -/

/-- `rte_eal_wait_lcore(id)` from its start to after its return; `waited` says that the
lcore showed `WAIT` at the start. -/
inductive WaitCall (id : ℕ) (waited : Prop) (h : List (Option F × ℕ)) (s : State F) : Prop
  | check (hpc : s.master = .waitCheck id) (htodo : s.todo = [])
      (hwaited : waited ↔ (s.lcore id).state = .wait) (hh : (s.lcore id).launches = h)
  | loop (hpc : s.master = .waitLoopWait id ∨ s.master = .waitLoopFinished id)
      (htodo : s.todo = []) (hnot : ¬ waited) (hh : (s.lcore id).launches = h)
  | store (hpc : s.master = .waitStore id) (htodo : s.todo = []) (hnot : ¬ waited)
      (hh : (s.lcore id).launches = h)
  | load (hpc : s.master = .waitLoadRet id) (htodo : s.todo = []) (hnot : ¬ waited)
      (hstate : (s.lcore id).state = .wait) (hh : (s.lcore id).launches = h)
  | back (result : ℤ) (hpc : s.master = .app result)
      (hstate : (s.lcore id).state = .wait) (hwaited : waited → result = 0)
      (hnot : ¬ waited → result = (s.lcore id).ret) (hh : (s.lcore id).launches = h)

theorem WaitCall.undisturbed {id : ℕ} {waited : Prop} {h : List (Option F × ℕ)}
    (hw : WaitCall id waited h s) (hid : id ∈ cfg.rteLcoreForeachSlave)
    (hrole : coreRole id ≠ .service) (hu : Undisturbed cfg coreRole s t) :
    WaitCall id waited h t := by
  have hlaunches := hu.launches id
  cases hw with
  | check hpc htodo hwaited hh =>
      refine .check (by rw [hu.master, hpc]) (by rw [hu.todo, htodo]) ?_ (by rw [hlaunches, hh])
      rw [hwaited]
      constructor
      · intro hstate
        rw [hu.waiting id hid (Or.inl (by rw [hpc]; rfl)) hstate]
        exact hstate
      · intro hstate
        by_contra hbefore
        exact hu.notWaiting id hrole hbefore hstate
  | loop hpc htodo hnot hh =>
      exact .loop (by rw [hu.master]; exact hpc) (by rw [hu.todo, htodo]) hnot
        (by rw [hlaunches, hh])
  | store hpc htodo hnot hh =>
      exact .store (by rw [hu.master, hpc]) (by rw [hu.todo, htodo]) hnot
        (by rw [hlaunches, hh])
  | load hpc htodo hnot hstate hh =>
      have hsame := hu.waiting id hid (Or.inr (by simp [hpc, MasterPc.view])) hstate
      exact .load (by rw [hu.master, hpc]) (by rw [hu.todo, htodo]) hnot
        (by rw [hsame, hstate]) (by rw [hlaunches, hh])
  | back result hpc hstate hwaited hnot hh =>
      have hsame := hu.waiting id hid (Or.inl (by rw [hpc, MasterPc.view_app])) hstate
      exact .back result (by rw [hu.master, hpc]) (by rw [hsame, hstate]) hwaited
        (by rw [hsame]; exact hnot) (by rw [hlaunches, hh])

theorem WaitCall.masterStep {id : ℕ} {waited : Prop} {h : List (Option F × ℕ)}
    (hw : WaitCall id waited h s) (hstep : masterStep cfg s = .moves t) :
    WaitCall id waited h t := by
  cases hw with
  | check hpc htodo hwaited hh =>
      simp only [Eal.masterStep, hpc] at hstep
      split at hstep
      · rename_i hstate
        cases hstep
        exact .back 0 (by simp [State.resume, htodo]) (by simpa using hstate) (fun _ => rfl)
          (fun hnot => absurd (hwaited.mpr hstate) hnot) (by simpa using hh)
      · rename_i hstate
        cases hstep
        exact .loop (Or.inl rfl) htodo (fun hw => hstate (hwaited.mp hw)) hh
  | loop hpc htodo hnot hh =>
      rcases hpc with hpc | hpc
      · simp only [Eal.masterStep, hpc] at hstep
        split at hstep
        · cases hstep
          exact .store rfl htodo hnot hh
        · cases hstep
          exact .loop (Or.inr rfl) htodo hnot hh
      · simp only [Eal.masterStep, hpc] at hstep
        split at hstep
        · cases hstep
          exact .store rfl htodo hnot hh
        · cases hstep
          exact .loop (Or.inl rfl) htodo hnot hh
  | store hpc htodo hnot hh =>
      simp only [Eal.masterStep, hpc] at hstep
      cases hstep
      exact .load rfl htodo hnot (by simp) (by simpa using hh)
  | load hpc htodo hnot hstate hh =>
      simp only [Eal.masterStep, hpc] at hstep
      cases hstep
      exact .back _ (by simp [State.resume, htodo]; rfl) (by simpa using hstate)
        (fun hw => absurd hw hnot) (fun _ => by simp) (by simpa using hh)
  | back result hpc => simp [masterStep_app hpc] at hstep

theorem WaitCall.quiet {id : ℕ} {waited : Prop} {h : List (Option F × ℕ)} {a : Action F}
    (hinv : Inv cfg s) (hw : WaitCall id waited h s) (hid : id ∈ cfg.rteLcoreForeachSlave)
    (hrole : coreRole id ≠ .service) (hquiet : ∀ c, a ≠ .call c)
    (hstep : step cfg coreRole s a = some t) : WaitCall id waited h t := by
  rcases quiet_cases hinv hquiet hstep with hmoves | ⟨ret, g, arg', hpc, rfl⟩ | hu
  · exact hw.masterStep hmoves
  · cases hw <;> simp_all
  · exact hw.undisturbed hid hrole hu

/-- `rte_eal_wait_lcore` on an lcore that is no service core returns only when every
function launched there has been called and has returned.  It yields 0 if the lcore was
waiting already, else the result of the last of them, and leaves the lcore in `WAIT`. -/
theorem waitLcore_returns_last (cfg : Config) (coreRole : ℕ → Role)
    (acts : List (Action F)) (s : State F)
    (hrun : exec (step cfg coreRole) acts State.init = some s) (id : ℕ)
    (hid : id ∈ cfg.rteLcoreForeachSlave) (hrole : coreRole id ≠ .service)
    (quiet : List (Action F)) (hquiet : ∀ c, Action.call c ∉ quiet) (t : State F) (result : ℤ)
    (hcall : exec (step cfg coreRole) (.call (.waitLcore id) :: quiet) s = some t)
    (happ : t.master = .app result) :
    (t.lcore id).state = .wait ∧
      (t.lcore id).called = (s.lcore id).launches ∧
      (t.lcore id).returns.length = (t.lcore id).calls.length ∧
      (if (s.lcore id).state = .wait then result = 0
        else (t.lcore id).returns.getLast? = some result) := by
  obtain ⟨u, hu, hrest⟩ := exec_cons_eq_some.mp hcall
  have hinv := inv_step (inv_of_run hrun) hu
  obtain ⟨⟨result', happ'⟩, rfl⟩ := call_of_step hu
  have hstart : WaitCall id ((s.lcore id).state = .wait) (s.lcore id).launches
      (s.call cfg (.waitLcore id)) := .check rfl rfl Iff.rfl rfl
  obtain ⟨hinvEnd, hend⟩ := quiet_run
    (fun _ _ _ hi hw hq hstep => WaitCall.quiet hi hw hid hrole hq hstep) hquiet hinv hstart hrest
  cases hend with
  | back result'' hpc hstate hwaited hnot hh =>
      have hresult : result = result'' := by simpa [happ] using hpc
      subst hresult
      have hphase := hinvEnd id hid
      rw [hpc] at hphase
      obtain ⟨-, -, -, hsettled⟩ := Phase.rest hphase (by simp [hstate])
      refine ⟨hstate, by rw [← hsettled.called, hh], hsettled.returned, ?_⟩
      split
      · rename_i hwas
        exact hwaited hwas
      · rename_i hwas
        -- something was launched here before, so there is a last result
        have hbefore : (s.lcore id).launches ≠ [] := by
          have hphase' := inv_of_run hrun id hid
          rw [happ'] at hphase'
          exact Phase.launches_ne_nil hphase' hwas
        have hreturns : (t.lcore id).returns ≠ [] := by
          intro hnone
          have hcalls : (t.lcore id).calls = [] := by
            apply List.eq_nil_of_length_eq_zero
            rw [← hsettled.returned, hnone]
            rfl
          apply hbefore
          rw [← hh, hsettled.called, Lcore.called, hcalls]
          rfl
        rw [List.getLast?_eq_some_getLast hreturns, hnot hwas,
          hsettled.latest _ (List.getLast?_eq_some_getLast hreturns)]
  | check hpc => simp [happ] at hpc
  | loop hpc => simp [happ] at hpc
  | store hpc => simp [happ] at hpc
  | load hpc => simp [happ] at hpc

theorem waitLcore_returns_last_oneLaunch :
    ∃ s t, exec (step Config.threeOfEight fun _ => .rte) oneLaunch State.init = some s ∧
      exec (step Config.threeOfEight fun _ => .rte)
        (.call (.waitLcore 2) :: List.replicate 5 .master) s = some t ∧
      (t.lcore 2).returns.getLast? = some 7 := by
  have hstate : (exec (step Config.threeOfEight fun _ => .rte) oneLaunch State.init).bind
      (fun s => (exec (step Config.threeOfEight fun _ => .rte)
        (.call (.waitLcore 2) :: List.replicate 5 .master) s).map
        (fun t => ((s.lcore 2).state, t.master))) = some (.finished, .app 7) := by decide +kernel
  obtain ⟨s, hrun, hs⟩ := Option.bind_eq_some_iff.mp hstate
  obtain ⟨t, hcall, ht⟩ := Option.map_eq_some_iff.mp hs
  have hfinished : (s.lcore 2).state = .finished := congrArg Prod.fst ht
  have hlast := (waitLcore_returns_last _ _ oneLaunch s hrun 2 (by decide +kernel) (by decide)
    (List.replicate 5 .master) (by simp) t 7 hcall (congrArg Prod.snd ht)).2.2.2
  rw [hfinished] at hlast
  exact ⟨s, t, hrun, hcall, hlast⟩

/-! ## Waiting for all slave lcores -/

def InWait (id : ℕ) : MasterPc F → Prop
  | .waitCheck i => i = id
  | .waitLoopWait i => i = id
  | .waitLoopFinished i => i = id
  | .waitStore i => i = id
  | .waitLoadRet i => i = id
  | _ => False

theorem InWait.view {id : ℕ} {m : MasterPc F} (h : InWait id m) (j : ℕ) :
    m.view j = .away ∨ m.view j = .collect := by
  cases m with
  | waitStore i => by_cases hi : i = j <;> simp [MasterPc.view, hi]
  | waitLoadRet i => by_cases hi : i = j <;> simp [MasterPc.view, hi]
  | waitCheck i => exact Or.inl rfl
  | waitLoopWait i => exact Or.inl rfl
  | waitLoopFinished i => exact Or.inl rfl
  | _ => exact h.elim

theorem InWait.step {id : ℕ} (h : InWait id s.master)
    (hstored : s.master = .waitLoadRet id → (s.lcore id).state = .wait)
    (hstep : masterStep cfg s = .moves t) :
    ((InWait id t.master ∧ t.todo = s.todo ∧
          (t.master = .waitLoadRet id → (t.lcore id).state = .wait)) ∨
        (∃ r, t = s.resume r) ∧ (t.lcore id).state = .wait) ∧
      (∀ j, (t.lcore j).launches = (s.lcore j).launches) ∧
      (∀ j, (s.lcore j).state = .wait → (t.lcore j).state = .wait) := by
  cases hpc : s.master with
  | waitCheck i =>
      simp only [hpc, InWait] at h
      subst h
      simp only [masterStep, hpc] at hstep
      split at hstep
      · rename_i hstate
        cases hstep
        exact ⟨Or.inr ⟨⟨0, rfl⟩, by simpa using hstate⟩, by simp, by simp⟩
      · cases hstep
        exact ⟨Or.inl ⟨rfl, rfl, by simp⟩, fun _ => rfl, fun _ hj => hj⟩
  | waitLoopWait i =>
      simp only [hpc, InWait] at h
      subst h
      simp only [masterStep, hpc] at hstep
      split at hstep
      · cases hstep
        exact ⟨Or.inl ⟨rfl, rfl, by simp⟩, fun _ => rfl, fun _ hj => hj⟩
      · cases hstep
        exact ⟨Or.inl ⟨rfl, rfl, by simp⟩, fun _ => rfl, fun _ hj => hj⟩
  | waitLoopFinished i =>
      simp only [hpc, InWait] at h
      subst h
      simp only [masterStep, hpc] at hstep
      split at hstep
      · cases hstep
        exact ⟨Or.inl ⟨rfl, rfl, by simp⟩, fun _ => rfl, fun _ hj => hj⟩
      · cases hstep
        exact ⟨Or.inl ⟨rfl, rfl, by simp⟩, fun _ => rfl, fun _ hj => hj⟩
  | waitStore i =>
      simp only [hpc, InWait] at h
      subst h
      simp only [masterStep, hpc] at hstep
      cases hstep
      refine ⟨Or.inl ⟨rfl, rfl, by simp⟩, ?_, ?_⟩
      · intro j
        by_cases hj : j = i <;> simp [hj]
      · intro j hstate
        by_cases hj : j = i <;> simp [hj, hstate]
  | waitLoadRet i =>
      simp only [hpc, InWait] at h
      subst h
      simp only [masterStep, hpc] at hstep
      cases hstep
      exact ⟨Or.inr ⟨⟨_, rfl⟩, by simpa using hstored hpc⟩, by simp, by simp⟩
  | app result => simp [hpc, InWait] at h
  | launchCheck f arg i => simp [hpc, InWait] at h
  | launchStoreF f arg i => simp [hpc, InWait] at h
  | launchStoreArg arg i => simp [hpc, InWait] at h
  | launchWrite i => simp [hpc, InWait] at h
  | launchReadAck i => simp [hpc, InWait] at h
  | mpCheck f arg callMaster rest => simp [hpc, InWait] at h
  | masterFunction f arg => simp [hpc, InWait] at h
  | masterStoreRet ret => simp [hpc, InWait] at h
  | masterStoreState => simp [hpc, InWait] at h

/-- `rte_eal_mp_wait_lcore` from its start to after its return: the lcores `done` have
been waited for. -/
inductive MpWait (cfg : Config) (h : ℕ → List (Option F × ℕ)) (s : State F) : Prop
  | collect (done : List ℕ) (id : ℕ) (rest : List ℕ)
      (hsplit : cfg.rteLcoreForeachSlave = done ++ id :: rest) (hpc : InWait id s.master)
      (hstored : s.master = .waitLoadRet id → (s.lcore id).state = .wait)
      (htodo : s.todo = rest.map Pending.wait ++ [.done]) (hready : Ready done s)
      (hh : History cfg h s)
  | finished (hpc : s.master = .app 0) (htodo : s.todo = [])
      (hready : Ready cfg.rteLcoreForeachSlave s) (hh : History cfg h s)

theorem MpWait.resume {h : ℕ → List (Option F × ℕ)} (done rest : List ℕ) {r : ℤ}
    (hsplit : cfg.rteLcoreForeachSlave = done ++ rest)
    (htodo : s.todo = rest.map Pending.wait ++ [.done]) (hready : Ready done s)
    (hh : History cfg h s) : MpWait cfg h (s.resume r) := by
  cases rest with
  | nil =>
      have hdone : done = cfg.rteLcoreForeachSlave := by simpa using hsplit.symm
      subst hdone
      refine .finished ?_ ?_ ?_ ?_
      · simp [State.resume, htodo]
      · simp [State.resume, htodo]
      · simpa [Ready] using hready
      · simpa [History] using hh
  | cons id rest =>
      refine .collect done id rest hsplit ?_ ?_ ?_ ?_ ?_
      · simp [State.resume, htodo, InWait]
      · simp [State.resume, htodo]
      · simp [State.resume, htodo]
      · simpa [Ready] using hready
      · simpa [History] using hh

theorem MpWait.start {h : ℕ → List (Option F × ℕ)} (hh : History cfg h s) :
    MpWait cfg h (s.call cfg .mpWaitLcore) :=
  MpWait.resume [] cfg.rteLcoreForeachSlave rfl rfl (by simp [Ready]) hh

theorem MpWait.quiet {h : ℕ → List (Option F × ℕ)} {a : Action F} (hinv : Inv cfg s)
    (hw : MpWait cfg h s) (hquiet : ∀ c, a ≠ .call c)
    (hstep : step cfg coreRole s a = some t) : MpWait cfg h t := by
  cases hw with
  | collect done id rest hsplit hpc hstored htodo hready hh =>
      rcases quiet_cases hinv hquiet hstep with hmoves | ⟨ret, g, arg', hpc', rfl⟩ | hu
      · obtain ⟨hnext, hlaunches, hkeeps⟩ := hpc.step hstored hmoves
        have hready' : Ready done t := fun j hj => hkeeps j (hready j hj)
        have hh' : History cfg h t := fun j hj => by rw [hlaunches, hh j hj]
        rcases hnext with ⟨hin, htodo', hstored'⟩ | ⟨⟨r, rfl⟩, hstate⟩
        · exact .collect done id rest hsplit hin hstored' (by rw [htodo', htodo]) hready' hh'
        · apply MpWait.resume (done ++ [id]) rest (by simp [hsplit]) htodo
          · intro j hj
            rcases List.mem_append.mp hj with hdone | hid
            · exact hready j hdone
            · simpa [List.mem_singleton.mp hid] using hstate
          · exact hh
      · simp [hpc', InWait] at hpc
      · have hmem : ∀ j ∈ done ++ [id], j ∈ cfg.rteLcoreForeachSlave := by
          intro j hj
          simp only [List.mem_append, List.mem_singleton] at hj
          rw [hsplit]
          rcases hj with hj | rfl <;> simp_all
        refine .collect done id rest hsplit (by rw [hu.master]; exact hpc) ?_
          (by rw [hu.todo, htodo]) (hu.ready ?_ hready) (hu.history hh)
        · intro hload
          rw [hu.master] at hload
          rw [hu.waiting id (hmem id (by simp)) (hpc.view id) (hstored hload)]
          exact hstored hload
        · intro j hj
          exact ⟨hmem j (by simp [hj]), hpc.view j⟩
  | finished hpc htodo hready hh =>
      rcases quiet_cases hinv hquiet hstep with hmoves | ⟨ret, g, arg', hpc', rfl⟩ | hu
      · simp [masterStep_app hpc] at hmoves
      · simp [hpc] at hpc'
      · refine .finished (by rw [hu.master, hpc]) (by rw [hu.todo, htodo]) (hu.ready ?_ hready)
          (hu.history hh)
        intro j hj
        exact ⟨hj, Or.inl (by rw [hpc, MasterPc.view_app])⟩

/-! ## Programs -/

def calls (acts : List (Action F)) : List (Call F) :=
  acts.filterMap fun
    | .call c => some c
    | _ => none

/-- What the steps between calls keep, and each call of a program leads on, holds at the
program's end. -/
theorem exec_program {P : List (Call F) → State F → Prop}
    (hquiet : ∀ cs s a t, Inv cfg s → P cs s → (∀ c, a ≠ .call c) →
      step cfg coreRole s a = some t → P cs t)
    (hcall : ∀ c cs s result, P (c :: cs) s → s.master = .app result → P cs (s.call cfg c))
    {acts : List (Action F)} (hinv : Inv cfg s) (hs : P (calls acts) s)
    (hrun : exec (step cfg coreRole) acts s = some t) : Inv cfg t ∧ P [] t := by
  induction acts generalizing s with
  | nil =>
      cases hrun
      exact ⟨hinv, hs⟩
  | cons a acts ih =>
      obtain ⟨u, hu, hrest⟩ := exec_cons_eq_some.mp hrun
      apply ih (inv_step hinv hu) _ hrest
      cases a with
      | call c =>
          obtain ⟨⟨result, happ⟩, rfl⟩ := call_of_step hu
          exact hcall c (calls acts) s result hs happ
      | master => exact hquiet _ _ _ _ hinv hs (by simp) hu
      | masterReturns ret => exact hquiet _ _ _ _ hinv hs (by simp) hu
      | slave id => exact hquiet _ _ _ _ hinv hs (by simp) hu
      | slaveReturns id ret => exact hquiet _ _ _ _ hinv hs (by simp) hu

end SoftwareSwitches.Eal
