import SoftwareSwitches.Eal.Lcore
import SoftwareSwitches.Lib.Execution
import Mathlib.Data.List.Infix
import Mathlib.Logic.Function.Basic

/-!
# Launching functions on other lcores

The master thread hands a function to a slave thread through the fields of its
`lcore_config`, wakes it with a byte on one pipe and waits for a byte on the other.
Every access of a thread to shared memory or to a pipe is an action of its own, so
that a run is an interleaving of the master with all slave threads.

Reads and writes on the pipes do not fail, apart from the interrupted calls that
the source repeats.
-/

namespace SoftwareSwitches.Eal

open Lib.Execution

inductive LcoreState
  | wait
  | running
  | finished
deriving DecidableEq, Repr

section Model

variable {F : Type*}

/-! ## A slave thread -/

/-- Where the thread stands in the loop of `eal_thread_loop`: the access it makes next. -/
inductive SlavePc (F : Type*)
  | readCommand
  | storeRunning
  | writeAck
  | checkFunction
  | loadArg
  | loadFunction (fctArg : ℕ)
  | inFunction (f : F) (fctArg : ℕ)
  | storeRet (ret : ℤ)
  | storeState

/-- The `lcore_config` of an lcore with the bytes in its two pipes and the position of
its thread; then the history of the run, which the program does not have: the launches
that found the lcore waiting, the calls the thread made and what they returned.  A
function pointer is `none` for `NULL`, an argument is the number a `void *` holds. -/
structure Lcore (F : Type*) where
  f : Option F
  arg : ℕ
  ret : ℤ
  state : LcoreState
  master2slave : ℕ
  slave2master : ℕ
  pc : SlavePc F
  launches : List (Option F × ℕ)
  calls : List (F × ℕ)
  returns : List ℤ

def Lcore.init : Lcore F := ⟨none, 0, 0, .wait, 0, 0, .readCommand, [], [], []⟩

inductive Effect (σ : Type*)
  | blocks
  | panics
  | moves (s : σ)

def slaveStep (coreRole : Role) (l : Lcore F) : Effect (Lcore F) :=
  match l.pc with
  | .readCommand =>
    if l.master2slave = 0 then .blocks
    else .moves { l with master2slave := l.master2slave - 1, pc := .storeRunning }
  | .storeRunning => .moves { l with state := .running, pc := .writeAck }
  | .writeAck => .moves { l with slave2master := l.slave2master + 1, pc := .checkFunction }
  | .checkFunction =>
    match l.f with
    | none => .panics
    | some _ => .moves { l with pc := .loadArg }
  | .loadArg => .moves { l with pc := .loadFunction l.arg }
  | .loadFunction fctArg =>
    match l.f with
    | none => .panics
    | some f =>
      .moves { l with pc := .inFunction f fctArg, calls := l.calls ++ [(f, fctArg)] }
  | .inFunction _ _ => .blocks
  | .storeRet ret => .moves { l with ret := ret, pc := .storeState }
  | .storeState =>
    .moves { l with
      state := if coreRole = .service then .wait else .finished
      pc := .readCommand }

def functionReturns (ret : ℤ) (l : Lcore F) : Effect (Lcore F) :=
  match l.pc with
  | .inFunction _ _ => .moves { l with pc := .storeRet ret, returns := l.returns ++ [ret] }
  | _ => .blocks

/-! ## The master thread -/

/-- The calls the application may make, on the master lcore only. -/
inductive Call (F : Type*)
  | remoteLaunch (f : Option F) (arg slaveId : ℕ)
  | waitLcore (slaveId : ℕ)
  | mpRemoteLaunch (f : Option F) (arg : ℕ) (callMaster : Bool)
  | mpWaitLcore
deriving DecidableEq

/-- What is left to do of a call that visits several lcores; its own result is known
already. -/
inductive Pending (F : Type*)
  | launch (f : Option F) (arg slaveId : ℕ)
  | wait (slaveId : ℕ)
  | callMaster (f : Option F) (arg : ℕ)
  | done

/-- The access the master makes next, or the application with the result of the last
call. -/
inductive MasterPc (F : Type*)
  | app (result : ℤ)
  | launchCheck (f : Option F) (arg slaveId : ℕ)
  | launchStoreF (f : Option F) (arg slaveId : ℕ)
  | launchStoreArg (arg slaveId : ℕ)
  | launchWrite (slaveId : ℕ)
  | launchReadAck (slaveId : ℕ)
  | waitCheck (slaveId : ℕ)
  | waitLoopWait (slaveId : ℕ)
  | waitLoopFinished (slaveId : ℕ)
  | waitStore (slaveId : ℕ)
  | waitLoadRet (slaveId : ℕ)
  | mpCheck (f : Option F) (arg : ℕ) (callMaster : Bool) (rest : List ℕ)
  | masterFunction (f : Option F) (arg : ℕ)
  | masterStoreRet (ret : ℤ)
  | masterStoreState
deriving DecidableEq

structure State (F : Type*) where
  lcore : ℕ → Lcore F
  master : MasterPc F
  todo : List (Pending F)
  aborted : Bool

/-- `rte_eal_init` has created the pipes and the threads. -/
def State.init : State F := ⟨fun _ => .init, .app 0, [], false⟩

def EBUSY : ℤ := 16

def State.setLcore (s : State F) (id : ℕ) (l : Lcore F) : State F :=
  { s with lcore := Function.update s.lcore id l }

/-- An inner call has returned `result`: go on with the call it was made for. -/
def State.resume (s : State F) (result : ℤ) : State F :=
  match s.todo with
  | [] => { s with master := .app result }
  | .launch f arg id :: todo => { s with master := .launchCheck f arg id, todo := todo }
  | .wait id :: todo => { s with master := .waitCheck id, todo := todo }
  | .callMaster f arg :: todo => { s with master := .masterFunction f arg, todo := todo }
  | .done :: todo => { s with master := .app 0, todo := todo }

variable (cfg : Config)

def State.call (s : State F) : Call F → State F
  | .remoteLaunch f arg id => { s with master := .launchCheck f arg id, todo := [] }
  | .waitLcore id => { s with master := .waitCheck id, todo := [] }
  | .mpRemoteLaunch f arg callMaster =>
    { s with master := .mpCheck f arg callMaster cfg.rteLcoreForeachSlave, todo := [] }
  | .mpWaitLcore =>
    { s with todo := cfg.rteLcoreForeachSlave.map Pending.wait ++ [Pending.done] }.resume 0

/-- The launches of `rte_eal_mp_remote_launch` after its check, whose results it drops. -/
def mpTasks (f : Option F) (arg : ℕ) (callMaster : Bool) : List (Pending F) :=
  cfg.rteLcoreForeachSlave.map (Pending.launch f arg) ++
    (if callMaster then [.callMaster f arg] else []) ++ [.done]

def masterStep (s : State F) : Effect (State F) :=
  match s.master with
  | .app _ => .blocks
  | .launchCheck f arg id =>
    if (s.lcore id).state = .wait then
      .moves { s.setLcore id
          { s.lcore id with launches := (s.lcore id).launches ++ [(f, arg)] } with
        master := .launchStoreF f arg id }
    else .moves (s.resume (-EBUSY))
  | .launchStoreF f arg id =>
    .moves { s.setLcore id { s.lcore id with f := f } with master := .launchStoreArg arg id }
  | .launchStoreArg arg id =>
    .moves { s.setLcore id { s.lcore id with arg := arg } with master := .launchWrite id }
  | .launchWrite id =>
    .moves { s.setLcore id
        { s.lcore id with master2slave := (s.lcore id).master2slave + 1 } with
      master := .launchReadAck id }
  | .launchReadAck id =>
    if (s.lcore id).slave2master = 0 then .blocks
    else
      .moves ((s.setLcore id
        { s.lcore id with slave2master := (s.lcore id).slave2master - 1 }).resume 0)
  | .waitCheck id =>
    if (s.lcore id).state = .wait then .moves (s.resume 0)
    else .moves { s with master := .waitLoopWait id }
  | .waitLoopWait id =>
    if (s.lcore id).state = .wait then .moves { s with master := .waitStore id }
    else .moves { s with master := .waitLoopFinished id }
  | .waitLoopFinished id =>
    if (s.lcore id).state = .finished then .moves { s with master := .waitStore id }
    else .moves { s with master := .waitLoopWait id }
  | .waitStore id =>
    .moves { s.setLcore id { s.lcore id with state := .wait } with master := .waitLoadRet id }
  | .waitLoadRet id => .moves (s.resume (s.lcore id).ret)
  | .mpCheck f arg callMaster [] =>
    .moves ({ s with todo := mpTasks cfg f arg callMaster }.resume 0)
  | .mpCheck f arg callMaster (id :: rest) =>
    if (s.lcore id).state = .wait then
      .moves { s with master := .mpCheck f arg callMaster rest }
    else .moves { s with master := .app (-EBUSY) }
  | .masterFunction none _ => .panics
  | .masterFunction (some _) _ => .blocks
  | .masterStoreRet ret =>
    .moves { s.setLcore cfg.masterLcore { s.lcore cfg.masterLcore with ret := ret } with
      master := .masterStoreState }
  | .masterStoreState =>
    .moves ((s.setLcore cfg.masterLcore
      { s.lcore cfg.masterLcore with state := .finished }).resume 0)

variable {cfg} in
theorem masterStep_app {s : State F} {result : ℤ} (hpc : s.master = .app result) :
    masterStep cfg s = .blocks := by
  simp only [masterStep, hpc]

/-! ## The system -/

inductive Action (F : Type*)
  | call (c : Call F)
  | master
  | masterReturns (ret : ℤ)
  | slave (id : ℕ)
  | slaveReturns (id : ℕ) (ret : ℤ)

/-- `rte_panic` ends the process. -/
def Effect.run {σ : Type*} (s : State F) (e : Effect σ) (into : σ → State F) :
    Option (State F) :=
  match e with
  | .blocks => none
  | .panics => some { s with aborted := true }
  | .moves x => some (into x)

def Call.legal : Call F → Prop
  | .remoteLaunch _ _ id => id ∈ cfg.rteLcoreForeachSlave
  | _ => True

instance : DecidablePred (Call.legal (F := F) cfg)
  | .remoteLaunch _ _ id => inferInstanceAs (Decidable (id ∈ cfg.rteLcoreForeachSlave))
  | .waitLcore _ => inferInstanceAs (Decidable True)
  | .mpRemoteLaunch _ _ _ => inferInstanceAs (Decidable True)
  | .mpWaitLcore => inferInstanceAs (Decidable True)

variable (coreRole : ℕ → Role)

def step (s : State F) (a : Action F) : Option (State F) :=
  if s.aborted then none
  else
    match a with
    | .call c =>
      match s.master with
      | .app _ => if c.legal cfg then some (s.call cfg c) else none
      | _ => none
    | .master => (masterStep cfg s).run s id
    | .masterReturns ret =>
      match s.master with
      | .masterFunction (some _) _ => some { s with master := .masterStoreRet ret }
      | _ => none
    | .slave id =>
      if id ∈ cfg.rteLcoreForeachSlave then
        (slaveStep (coreRole id) (s.lcore id)).run s (s.setLcore id)
      else none
    | .slaveReturns id ret =>
      if id ∈ cfg.rteLcoreForeachSlave then
        (functionReturns ret (s.lcore id)).run s (s.setLcore id)
      else none

end Model

/-! ## What the master and a slave agree on -/

section Phases

variable {F : Type*}

inductive View (F : Type*)
  | away
  | storeF (f : Option F) (arg : ℕ)
  | storeArg (arg : ℕ)
  | write
  | readAck
  | collect

/-- The master has seen that the lcore is done and is about to fetch its result in
`collect`; in all other calls it is `away` from the lcore until a launch passes the
check. -/
def MasterPc.view (id : ℕ) : MasterPc F → View F
  | .launchStoreF f arg i => if i = id then .storeF f arg else .away
  | .launchStoreArg arg i => if i = id then .storeArg arg else .away
  | .launchWrite i => if i = id then .write else .away
  | .launchReadAck i => if i = id then .readAck else .away
  | .waitStore i => if i = id then .collect else .away
  | .waitLoadRet i => if i = id then .collect else .away
  | _ => .away

@[simp] theorem MasterPc.view_app (result : ℤ) (id : ℕ) :
    (MasterPc.app result : MasterPc F).view id = .away := by
  simp only [MasterPc.view]

def Lcore.called (l : Lcore F) : List (Option F × ℕ) :=
  l.calls.map (fun c => (some c.1, c.2))

/-- Every launch has been called and has returned, and `ret` is the latest result; only
an lcore that has called something is out of `WAIT`. -/
structure Settled (l : Lcore F) : Prop where
  called : l.launches = l.called
  returned : l.returns.length = l.calls.length
  latest : ∀ r, l.returns.getLast? = some r → l.ret = r
  started : l.state ≠ .wait → l.calls ≠ []

/-- All launches but the last one, of `f` on `arg`, have been called and have returned. -/
structure Owes (l : Lcore F) (f : Option F) (arg : ℕ) : Prop where
  called : l.launches = l.called ++ [(f, arg)]
  returned : l.returns.length = l.calls.length
  latest : ∀ r, l.returns.getLast? = some r → l.ret = r

/-- The acknowledgement is still in the pipe, or the master has taken it. -/
def Acked (v : View F) (l : Lcore F) : Prop :=
  (v = .readAck ∧ l.slave2master = 1) ∨ (v = .away ∧ l.slave2master = 0)

/-- The pairs of a master position and an lcore that occur.  At most one byte is in the
two pipes together, and the thread works on a launch only after the master has stored
all of it. -/
inductive Phase : View F → Lcore F → Prop
  | resting {v l} (hview : v = .away ∨ v = .collect) (hpc : l.pc = .readCommand)
      (hm2s : l.master2slave = 0) (hs2m : l.slave2master = 0) (hstate : l.state ≠ .running)
      (h : Settled l) : Phase v l
  | storeF {l f arg} (hpc : l.pc = .readCommand) (hm2s : l.master2slave = 0)
      (hs2m : l.slave2master = 0) (hstate : l.state = .wait) (h : Owes l f arg) :
      Phase (.storeF f arg) l
  | storeArg {l arg} (hpc : l.pc = .readCommand) (hm2s : l.master2slave = 0)
      (hs2m : l.slave2master = 0) (hstate : l.state = .wait) (h : Owes l l.f arg) :
      Phase (.storeArg arg) l
  | write {l} (hpc : l.pc = .readCommand) (hm2s : l.master2slave = 0)
      (hs2m : l.slave2master = 0) (hstate : l.state = .wait) (h : Owes l l.f l.arg) :
      Phase .write l
  | sent {l} (hpc : l.pc = .readCommand) (hm2s : l.master2slave = 1)
      (hs2m : l.slave2master = 0) (hstate : l.state = .wait) (h : Owes l l.f l.arg) :
      Phase .readAck l
  | taken {l} (hpc : l.pc = .storeRunning) (hm2s : l.master2slave = 0)
      (hs2m : l.slave2master = 0) (h : Owes l l.f l.arg) : Phase .readAck l
  | acking {l} (hpc : l.pc = .writeAck) (hm2s : l.master2slave = 0)
      (hs2m : l.slave2master = 0) (hstate : l.state = .running) (h : Owes l l.f l.arg) :
      Phase .readAck l
  | before {v l} (hack : Acked v l)
      (hpc : l.pc = .checkFunction ∨ l.pc = .loadArg ∨ l.pc = .loadFunction l.arg)
      (hm2s : l.master2slave = 0) (hstate : l.state = .running) (h : Owes l l.f l.arg) :
      Phase v l
  | during {v l f arg} (hack : Acked v l) (hpc : l.pc = .inFunction f arg)
      (hm2s : l.master2slave = 0) (hstate : l.state = .running)
      (hcalled : l.launches = l.called) (hreturns : l.returns.length + 1 = l.calls.length) :
      Phase v l
  | after {v l r} (hack : Acked v l) (hpc : l.pc = .storeRet r)
      (hm2s : l.master2slave = 0) (hstate : l.state = .running)
      (hcalled : l.launches = l.called) (hreturns : l.returns.length = l.calls.length)
      (hlast : l.returns.getLast? = some r) : Phase v l
  | leaving {v l} (hack : Acked v l) (hpc : l.pc = .storeState)
      (hm2s : l.master2slave = 0) (hstate : l.state = .running) (h : Settled l) : Phase v l
  | early {l} (hpc : l.pc = .readCommand) (hm2s : l.master2slave = 0)
      (hs2m : l.slave2master = 1) (hstate : l.state ≠ .running) (h : Settled l) :
      Phase .readAck l

theorem phase_init : Phase .away (Lcore.init : Lcore F) :=
  .resting (Or.inl rfl) rfl rfl rfl (by simp [Lcore.init])
    ⟨rfl, rfl, by simp [Lcore.init], by simp [Lcore.init]⟩

theorem Phase.slaveStep {v : View F} {l l' : Lcore F} {coreRole : Role} (h : Phase v l)
    (hstep : slaveStep coreRole l = .moves l') : Phase v l' := by
  cases h with
  | resting hview hpc hm2s hs2m hstate h => simp [Eal.slaveStep, hpc, hm2s] at hstep
  | storeF hpc hm2s hs2m hstate h => simp [Eal.slaveStep, hpc, hm2s] at hstep
  | storeArg hpc hm2s hs2m hstate h => simp [Eal.slaveStep, hpc, hm2s] at hstep
  | write hpc hm2s hs2m hstate h => simp [Eal.slaveStep, hpc, hm2s] at hstep
  | sent hpc hm2s hs2m hstate h =>
      simp only [Eal.slaveStep, hpc, hm2s] at hstep
      cases hstep
      exact .taken rfl rfl hs2m ⟨h.called, h.returned, h.latest⟩
  | taken hpc hm2s hs2m h =>
      simp only [Eal.slaveStep, hpc] at hstep
      cases hstep
      exact .acking rfl hm2s hs2m rfl ⟨h.called, h.returned, h.latest⟩
  | acking hpc hm2s hs2m hstate h =>
      simp only [Eal.slaveStep, hpc] at hstep
      cases hstep
      exact .before (Or.inl ⟨rfl, by simp [hs2m]⟩) (Or.inl rfl) hm2s hstate
        ⟨h.called, h.returned, h.latest⟩
  | before hack hpc hm2s hstate h =>
      rcases hpc with hpc | hpc | hpc
      · simp only [Eal.slaveStep, hpc] at hstep
        split at hstep
        · cases hstep
        · cases hstep
          exact .before hack (Or.inr (Or.inl rfl)) hm2s hstate
            ⟨h.called, h.returned, h.latest⟩
      · simp only [Eal.slaveStep, hpc] at hstep
        cases hstep
        exact .before hack (Or.inr (Or.inr rfl)) hm2s hstate
          ⟨h.called, h.returned, h.latest⟩
      · simp only [Eal.slaveStep, hpc] at hstep
        split at hstep
        · cases hstep
        · rename_i f hf
          cases hstep
          refine .during hack rfl hm2s hstate ?_ (by simp [h.returned])
          have hcalled := h.called
          rw [hf] at hcalled
          simpa [Lcore.called] using hcalled
  | during hack hpc hm2s hstate hcalled hreturns => simp [Eal.slaveStep, hpc] at hstep
  | after hack hpc hm2s hstate hcalled hreturns hlast =>
      simp only [Eal.slaveStep, hpc] at hstep
      cases hstep
      refine .leaving hack rfl hm2s hstate ⟨hcalled, hreturns, ?_, ?_⟩
      · intro r hr
        rw [hlast] at hr
        exact Option.some.inj hr
      · intro _ (hnone : l.calls = [])
        have hempty : l.returns = [] := List.eq_nil_of_length_eq_zero (by simp [hreturns, hnone])
        simp [hempty] at hlast
  | leaving hack hpc hm2s hstate h =>
      simp only [Eal.slaveStep, hpc] at hstep
      cases hstep
      have hrest : (if coreRole = .service then LcoreState.wait else .finished) ≠ .running := by
        split <;> simp
      have hstarted : l.calls ≠ [] := h.started (by simp [hstate])
      rcases hack with ⟨rfl, hs2m⟩ | ⟨rfl, hs2m⟩
      · exact .early rfl hm2s hs2m hrest ⟨h.called, h.returned, h.latest, fun _ => hstarted⟩
      · exact .resting (Or.inl rfl) rfl hm2s hs2m hrest
          ⟨h.called, h.returned, h.latest, fun _ => hstarted⟩
  | early hpc hm2s hs2m hstate h => simp [Eal.slaveStep, hpc, hm2s] at hstep

theorem Phase.functionReturns {v : View F} {l l' : Lcore F} {ret : ℤ} (h : Phase v l)
    (hstep : functionReturns ret l = .moves l') : Phase v l' := by
  cases h with
  | during hack hpc hm2s hstate hcalled hreturns =>
      simp only [Eal.functionReturns, hpc] at hstep
      cases hstep
      exact .after hack rfl hm2s hstate hcalled (by simpa using hreturns) (by simp)
  | before hack hpc hm2s hstate h =>
      rcases hpc with hpc | hpc | hpc <;> simp [Eal.functionReturns, hpc] at hstep
  | resting hview hpc => simp [Eal.functionReturns, hpc] at hstep
  | storeF hpc => simp [Eal.functionReturns, hpc] at hstep
  | storeArg hpc => simp [Eal.functionReturns, hpc] at hstep
  | write hpc => simp [Eal.functionReturns, hpc] at hstep
  | sent hpc => simp [Eal.functionReturns, hpc] at hstep
  | taken hpc => simp [Eal.functionReturns, hpc] at hstep
  | acking hpc => simp [Eal.functionReturns, hpc] at hstep
  | after hack hpc => simp [Eal.functionReturns, hpc] at hstep
  | leaving hack hpc => simp [Eal.functionReturns, hpc] at hstep
  | early hpc => simp [Eal.functionReturns, hpc] at hstep

/-- An lcore that the master has left alone and that does not show `RUNNING` is at rest. -/
theorem Phase.rest {l : Lcore F} (h : Phase .away l) (hstate : l.state ≠ .running) :
    l.pc = .readCommand ∧ l.master2slave = 0 ∧ l.slave2master = 0 ∧ Settled l := by
  cases h with
  | resting hview hpc hm2s hs2m hrest h => exact ⟨hpc, hm2s, hs2m, h⟩
  | before hack hpc hm2s hrunning h => exact absurd hrunning hstate
  | during hack hpc hm2s hrunning hcalled hreturns => exact absurd hrunning hstate
  | after hack hpc hm2s hrunning hcalled hreturns hlast => exact absurd hrunning hstate
  | leaving hack hpc hm2s hrunning h => exact absurd hrunning hstate

theorem Phase.launchCheck {l : Lcore F} (h : Phase .away l) (hstate : l.state = .wait)
    (f : Option F) (arg : ℕ) :
    Phase (.storeF f arg) { l with launches := l.launches ++ [(f, arg)] } := by
  obtain ⟨hpc, hm2s, hs2m, hsettled⟩ := h.rest (by simp [hstate])
  refine .storeF hpc hm2s hs2m hstate ⟨?_, hsettled.returned, hsettled.latest⟩
  show l.launches ++ [(f, arg)] = l.called ++ [(f, arg)]
  rw [hsettled.called]

theorem Phase.launchStoreF {l : Lcore F} {f : Option F} {arg : ℕ}
    (h : Phase (.storeF f arg) l) : Phase (.storeArg arg) { l with f := f } := by
  cases h with
  | storeF hpc hm2s hs2m hstate h =>
      exact .storeArg hpc hm2s hs2m hstate ⟨h.called, h.returned, h.latest⟩
  | resting hview => simp at hview
  | before hack => simp [Acked] at hack
  | during hack => simp [Acked] at hack
  | after hack => simp [Acked] at hack
  | leaving hack => simp [Acked] at hack

theorem Phase.launchStoreArg {l : Lcore F} {arg : ℕ} (h : Phase (.storeArg arg) l) :
    Phase .write { l with arg := arg } := by
  cases h with
  | storeArg hpc hm2s hs2m hstate h =>
      exact .write hpc hm2s hs2m hstate ⟨h.called, h.returned, h.latest⟩
  | resting hview => simp at hview
  | before hack => simp [Acked] at hack
  | during hack => simp [Acked] at hack
  | after hack => simp [Acked] at hack
  | leaving hack => simp [Acked] at hack

theorem Phase.launchWrite {l : Lcore F} (h : Phase .write l) :
    Phase .readAck { l with master2slave := l.master2slave + 1 } := by
  cases h with
  | write hpc hm2s hs2m hstate h =>
      exact .sent hpc (by simp [hm2s]) hs2m hstate ⟨h.called, h.returned, h.latest⟩
  | resting hview => simp at hview
  | before hack => simp [Acked] at hack
  | during hack => simp [Acked] at hack
  | after hack => simp [Acked] at hack
  | leaving hack => simp [Acked] at hack

theorem Phase.launchReadAck {l : Lcore F} (h : Phase .readAck l)
    (hs2m : l.slave2master ≠ 0) :
    Phase .away { l with slave2master := l.slave2master - 1 } := by
  cases h with
  | resting hview => simp at hview
  | sent hpc hm2s hzero => exact absurd hzero hs2m
  | taken hpc hm2s hzero => exact absurd hzero hs2m
  | acking hpc hm2s hzero => exact absurd hzero hs2m
  | before hack hpc hm2s hstate h =>
      obtain ⟨-, hone⟩ | ⟨hview, -⟩ := hack
      · exact .before (Or.inr ⟨rfl, by simp [hone]⟩) hpc hm2s hstate
          ⟨h.called, h.returned, h.latest⟩
      · cases hview
  | during hack hpc hm2s hstate hcalled hreturns =>
      obtain ⟨-, hone⟩ | ⟨hview, -⟩ := hack
      · exact .during (Or.inr ⟨rfl, by simp [hone]⟩) hpc hm2s hstate hcalled hreturns
      · cases hview
  | after hack hpc hm2s hstate hcalled hreturns hlast =>
      obtain ⟨-, hone⟩ | ⟨hview, -⟩ := hack
      · exact .after (Or.inr ⟨rfl, by simp [hone]⟩) hpc hm2s hstate hcalled hreturns hlast
      · cases hview
  | leaving hack hpc hm2s hstate h =>
      obtain ⟨-, hone⟩ | ⟨hview, -⟩ := hack
      · exact .leaving (Or.inr ⟨rfl, by simp [hone]⟩) hpc hm2s hstate
          ⟨h.called, h.returned, h.latest, h.started⟩
      · cases hview
  | early hpc hm2s hone hstate h =>
      exact .resting (Or.inl rfl) hpc hm2s (by simp [hone]) hstate
        ⟨h.called, h.returned, h.latest, h.started⟩

theorem Phase.collect {l : Lcore F} (h : Phase .away l) (hstate : l.state ≠ .running) :
    Phase .collect l := by
  obtain ⟨hpc, hm2s, hs2m, hsettled⟩ := h.rest hstate
  exact .resting (Or.inr rfl) hpc hm2s hs2m hstate hsettled

theorem Phase.waitStore {l : Lcore F} (h : Phase .collect l) :
    Phase .collect { l with state := .wait } := by
  cases h with
  | resting hview hpc hm2s hs2m hstate h =>
      exact .resting (Or.inr rfl) hpc hm2s hs2m (by simp)
        ⟨h.called, h.returned, h.latest, by simp⟩
  | before hack => simp [Acked] at hack
  | during hack => simp [Acked] at hack
  | after hack => simp [Acked] at hack
  | leaving hack => simp [Acked] at hack

theorem Phase.settled {l : Lcore F} (h : Phase .collect l) :
    Phase .away l ∧ l.state ≠ .running ∧ Settled l := by
  cases h with
  | resting hview hpc hm2s hs2m hstate h =>
      exact ⟨.resting (Or.inl rfl) hpc hm2s hs2m hstate h, hstate, h⟩
  | before hack => simp [Acked] at hack
  | during hack => simp [Acked] at hack
  | after hack => simp [Acked] at hack
  | leaving hack => simp [Acked] at hack

end Phases

/-! ## Every interleaving -/

section Runs

variable {F : Type*} {cfg : Config} {coreRole : ℕ → Role} {s t : State F}

@[simp] theorem resume_lcore (s : State F) (r : ℤ) : (s.resume r).lcore = s.lcore := by
  unfold State.resume
  split <;> rfl

@[simp] theorem resume_view (s : State F) (r : ℤ) (id : ℕ) :
    (s.resume r).master.view id = .away := by
  unfold State.resume
  split <;> rfl

@[simp] theorem call_lcore (s : State F) (c : Call F) : (s.call cfg c).lcore = s.lcore := by
  cases c <;> simp [State.call]

@[simp] theorem call_view (s : State F) (c : Call F) (id : ℕ) :
    (s.call cfg c).master.view id = .away := by
  cases c with
  | mpWaitLcore => simp only [State.call, resume_view]
  | remoteLaunch f arg i => rfl
  | waitLcore i => rfl
  | mpRemoteLaunch f arg callMaster => rfl

@[simp] theorem setLcore_master (s : State F) (id : ℕ) (l : Lcore F) :
    (s.setLcore id l).master = s.master := rfl

@[simp] theorem setLcore_todo (s : State F) (id : ℕ) (l : Lcore F) :
    (s.setLcore id l).todo = s.todo := rfl

@[simp] theorem setLcore_lcore (s : State F) (id : ℕ) (l : Lcore F) (j : ℕ) :
    (s.setLcore id l).lcore j = if j = id then l else s.lcore j := by
  unfold State.setLcore
  simp [Function.update_apply]

def Inv (cfg : Config) (s : State F) : Prop :=
  ∀ id ∈ cfg.rteLcoreForeachSlave, Phase (s.master.view id) (s.lcore id)

theorem inv_init (cfg : Config) : Inv cfg (State.init : State F) :=
  fun _ _ => phase_init

/-- A step of the master is about one lcore `i`: only there can its view or the lcore
change. -/
theorem Inv.of_target (h : Inv cfg s) (i : ℕ)
    (hother : ∀ id, id ≠ i → s.master.view id = .away ∧ t.master.view id = .away ∧
      t.lcore id = s.lcore id)
    (hphase : i ∈ cfg.rteLcoreForeachSlave → Phase (s.master.view i) (s.lcore i) →
      Phase (t.master.view i) (t.lcore i)) : Inv cfg t := by
  intro id hid
  by_cases hi : id = i
  · subst hi
    exact hphase hid (h id hid)
  · obtain ⟨hview, hview', hlcore⟩ := hother id hi
    have hid' := h id hid
    rw [hview] at hid'
    rw [hview', hlcore]
    exact hid'

theorem Inv.of_away (h : Inv cfg s) (hview : ∀ id, s.master.view id = .away)
    (hview' : ∀ id, t.master.view id = .away) (hlcore : t.lcore = s.lcore) : Inv cfg t := by
  intro id hid
  have hid' := h id hid
  rw [hview] at hid'
  rw [hview', hlcore]
  exact hid'

theorem inv_launchCheck (h : Inv cfg s) {f : Option F} {arg i : ℕ}
    (hpc : s.master = .launchCheck f arg i) (hstep : masterStep cfg s = .moves t) : Inv cfg t := by
  simp only [masterStep, hpc] at hstep
  split at hstep
  · rename_i hwait
    cases hstep
    apply h.of_target i
    · simp +contextual [hpc, MasterPc.view, eq_comm]
    · intro _ hphase
      simpa [hpc, MasterPc.view] using
        Phase.launchCheck (by simpa [hpc, MasterPc.view] using hphase) hwait f arg
  · cases hstep
    exact h.of_away (by simp [hpc, MasterPc.view]) (by simp) (by simp)

theorem inv_launchStoreF (h : Inv cfg s) {f : Option F} {arg i : ℕ}
    (hpc : s.master = .launchStoreF f arg i) (hstep : masterStep cfg s = .moves t) : Inv cfg t := by
  simp only [masterStep, hpc] at hstep
  cases hstep
  apply h.of_target i
  · simp +contextual [hpc, MasterPc.view, eq_comm]
  · intro _ hphase
    simp only [hpc, MasterPc.view, if_true] at hphase
    simpa [MasterPc.view] using hphase.launchStoreF

theorem inv_launchStoreArg (h : Inv cfg s) {arg i : ℕ} (hpc : s.master = .launchStoreArg arg i)
    (hstep : masterStep cfg s = .moves t) : Inv cfg t := by
  simp only [masterStep, hpc] at hstep
  cases hstep
  apply h.of_target i
  · simp +contextual [hpc, MasterPc.view, eq_comm]
  · intro _ hphase
    simp only [hpc, MasterPc.view, if_true] at hphase
    simpa [MasterPc.view] using hphase.launchStoreArg

theorem inv_launchWrite (h : Inv cfg s) {i : ℕ} (hpc : s.master = .launchWrite i)
    (hstep : masterStep cfg s = .moves t) : Inv cfg t := by
  simp only [masterStep, hpc] at hstep
  cases hstep
  apply h.of_target i
  · simp +contextual [hpc, MasterPc.view, eq_comm]
  · intro _ hphase
    simp only [hpc, MasterPc.view, if_true] at hphase
    simpa [MasterPc.view] using hphase.launchWrite

theorem inv_launchReadAck (h : Inv cfg s) {i : ℕ} (hpc : s.master = .launchReadAck i)
    (hstep : masterStep cfg s = .moves t) : Inv cfg t := by
  simp only [masterStep, hpc] at hstep
  split at hstep
  · cases hstep
  · rename_i hack
    cases hstep
    apply h.of_target i
    · intro id hid
      exact ⟨by simp [hpc, MasterPc.view, Ne.symm hid], resume_view _ _ _, by simp [hid]⟩
    · intro _ hphase
      simp only [hpc, MasterPc.view, if_true] at hphase
      simpa using hphase.launchReadAck hack

theorem inv_waitCheck (h : Inv cfg s) {i : ℕ} (hpc : s.master = .waitCheck i)
    (hstep : masterStep cfg s = .moves t) : Inv cfg t := by
  simp only [masterStep, hpc] at hstep
  split at hstep
  · cases hstep
    exact h.of_away (by simp [hpc, MasterPc.view]) (by simp) (by simp)
  · cases hstep
    exact h.of_away (by simp [hpc, MasterPc.view]) (by simp [MasterPc.view]) rfl

theorem inv_waitLoopWait (h : Inv cfg s) {i : ℕ} (hpc : s.master = .waitLoopWait i)
    (hstep : masterStep cfg s = .moves t) : Inv cfg t := by
  simp only [masterStep, hpc] at hstep
  split at hstep
  · rename_i hwait
    cases hstep
    apply h.of_target i
    · simp +contextual [hpc, MasterPc.view, eq_comm]
    · intro _ hphase
      simp only [hpc, MasterPc.view] at hphase
      simpa [MasterPc.view] using hphase.collect (by simp [hwait])
  · cases hstep
    exact h.of_away (by simp [hpc, MasterPc.view]) (by simp [MasterPc.view]) rfl

theorem inv_waitLoopFinished (h : Inv cfg s) {i : ℕ} (hpc : s.master = .waitLoopFinished i)
    (hstep : masterStep cfg s = .moves t) : Inv cfg t := by
  simp only [masterStep, hpc] at hstep
  split at hstep
  · rename_i hfinished
    cases hstep
    apply h.of_target i
    · simp +contextual [hpc, MasterPc.view, eq_comm]
    · intro _ hphase
      simp only [hpc, MasterPc.view] at hphase
      simpa [MasterPc.view] using hphase.collect (by simp [hfinished])
  · cases hstep
    exact h.of_away (by simp [hpc, MasterPc.view]) (by simp [MasterPc.view]) rfl

theorem inv_waitStore (h : Inv cfg s) {i : ℕ} (hpc : s.master = .waitStore i)
    (hstep : masterStep cfg s = .moves t) : Inv cfg t := by
  simp only [masterStep, hpc] at hstep
  cases hstep
  apply h.of_target i
  · simp +contextual [hpc, MasterPc.view, eq_comm]
  · intro _ hphase
    simp only [hpc, MasterPc.view, if_true] at hphase
    simpa [MasterPc.view] using hphase.waitStore

theorem inv_waitLoadRet (h : Inv cfg s) {i : ℕ} (hpc : s.master = .waitLoadRet i)
    (hstep : masterStep cfg s = .moves t) : Inv cfg t := by
  simp only [masterStep, hpc] at hstep
  cases hstep
  apply h.of_target i
  · intro id hid
    exact ⟨by simp [hpc, MasterPc.view, Ne.symm hid], resume_view _ _ _, by simp⟩
  · intro _ hphase
    simp only [hpc, MasterPc.view, if_true] at hphase
    simpa using hphase.settled.1

theorem inv_mpCheck (h : Inv cfg s) {f : Option F} {arg : ℕ} {callMaster : Bool}
    {rest : List ℕ} (hpc : s.master = .mpCheck f arg callMaster rest)
    (hstep : masterStep cfg s = .moves t) : Inv cfg t := by
  cases rest with
  | nil =>
      simp only [masterStep, hpc] at hstep
      cases hstep
      exact h.of_away (by simp [hpc, MasterPc.view]) (by simp) (by simp)
  | cons i rest =>
      simp only [masterStep, hpc] at hstep
      split at hstep
      · cases hstep
        exact h.of_away (by simp [hpc, MasterPc.view]) (by simp [MasterPc.view]) rfl
      · cases hstep
        exact h.of_away (by simp [hpc, MasterPc.view]) (by simp [MasterPc.view]) rfl

theorem inv_masterStoreRet (h : Inv cfg s) {ret : ℤ} (hpc : s.master = .masterStoreRet ret)
    (hstep : masterStep cfg s = .moves t) : Inv cfg t := by
  simp only [masterStep, hpc] at hstep
  cases hstep
  apply h.of_target cfg.masterLcore
  · simp +contextual [hpc, MasterPc.view]
  · intro hslave
    exact absurd rfl (Config.mem_rteLcoreForeachSlave.mp hslave).2.2

theorem inv_masterStoreState (h : Inv cfg s) (hpc : s.master = .masterStoreState)
    (hstep : masterStep cfg s = .moves t) : Inv cfg t := by
  simp only [masterStep, hpc] at hstep
  cases hstep
  apply h.of_target cfg.masterLcore
  · intro id hid
    exact ⟨by simp [hpc, MasterPc.view], resume_view _ _ _, by simp [hid]⟩
  · intro hslave
    exact absurd rfl (Config.mem_rteLcoreForeachSlave.mp hslave).2.2

theorem inv_masterStep (h : Inv cfg s) (hstep : masterStep cfg s = .moves t) : Inv cfg t := by
  cases hpc : s.master with
  | app result => simp [masterStep_app hpc] at hstep
  | launchCheck f arg i => exact inv_launchCheck h hpc hstep
  | launchStoreF f arg i => exact inv_launchStoreF h hpc hstep
  | launchStoreArg arg i => exact inv_launchStoreArg h hpc hstep
  | launchWrite i => exact inv_launchWrite h hpc hstep
  | launchReadAck i => exact inv_launchReadAck h hpc hstep
  | waitCheck i => exact inv_waitCheck h hpc hstep
  | waitLoopWait i => exact inv_waitLoopWait h hpc hstep
  | waitLoopFinished i => exact inv_waitLoopFinished h hpc hstep
  | waitStore i => exact inv_waitStore h hpc hstep
  | waitLoadRet i => exact inv_waitLoadRet h hpc hstep
  | mpCheck f arg callMaster rest => exact inv_mpCheck h hpc hstep
  | masterFunction f arg => cases f <;> simp [masterStep, hpc] at hstep
  | masterStoreRet ret => exact inv_masterStoreRet h hpc hstep
  | masterStoreState => exact inv_masterStoreState h hpc hstep

theorem Effect.run_eq_some {σ : Type*} {e : Effect σ} {into : σ → State F}
    (h : e.run s into = some t) :
    (∃ x, e = .moves x ∧ t = into x) ∨ (e = .panics ∧ t = { s with aborted := true }) := by
  cases e with
  | blocks => cases h
  | panics => exact Or.inr ⟨rfl, (Option.some.inj h).symm⟩
  | moves x => exact Or.inl ⟨x, rfl, (Option.some.inj h).symm⟩

inductive Steps (cfg : Config) (coreRole : ℕ → Role) (s : State F) : Action F → State F → Prop
  | call {c result} (happ : s.master = .app result) (hlegal : c.legal cfg) :
      Steps cfg coreRole s (.call c) (s.call cfg c)
  | master {s' : State F} (h : masterStep cfg s = .moves s') : Steps cfg coreRole s .master s'
  | masterReturns {ret f arg} (h : s.master = .masterFunction (some f) arg) :
      Steps cfg coreRole s (.masterReturns ret) { s with master := .masterStoreRet ret }
  | slave {id l} (hid : id ∈ cfg.rteLcoreForeachSlave)
      (h : slaveStep (coreRole id) (s.lcore id) = .moves l) :
      Steps cfg coreRole s (.slave id) (s.setLcore id l)
  | slaveReturns {id ret l} (hid : id ∈ cfg.rteLcoreForeachSlave)
      (h : functionReturns ret (s.lcore id) = .moves l) :
      Steps cfg coreRole s (.slaveReturns id ret) (s.setLcore id l)
  | masterPanics (h : masterStep cfg s = .panics) :
      Steps cfg coreRole s .master { s with aborted := true }
  | slavePanics {id} (hid : id ∈ cfg.rteLcoreForeachSlave)
      (h : slaveStep (coreRole id) (s.lcore id) = .panics) :
      Steps cfg coreRole s (.slave id) { s with aborted := true }

theorem steps_of_step {a : Action F} (hstep : step cfg coreRole s a = some t) :
    s.aborted = false ∧ Steps cfg coreRole s a t := by
  unfold step at hstep
  split at hstep
  · cases hstep
  · rename_i hlive
    refine ⟨by simpa using hlive, ?_⟩
    cases a with
    | call c =>
        simp only at hstep
        split at hstep
        · rename_i result happ
          split at hstep
          · rename_i hlegal
            cases hstep
            exact .call happ hlegal
          · cases hstep
        · cases hstep
    | master =>
        obtain ⟨x, hx, rfl⟩ | ⟨hpanics, rfl⟩ := Effect.run_eq_some hstep
        · exact .master hx
        · exact .masterPanics hpanics
    | masterReturns ret =>
        simp only at hstep
        split at hstep
        · rename_i f arg hpc
          cases hstep
          exact .masterReturns hpc
        · cases hstep
    | slave id =>
        simp only at hstep
        split at hstep
        · rename_i hid
          obtain ⟨l, hl, rfl⟩ | ⟨hpanics, rfl⟩ := Effect.run_eq_some hstep
          · exact .slave hid hl
          · exact .slavePanics hid hpanics
        · cases hstep
    | slaveReturns id ret =>
        simp only at hstep
        split at hstep
        · rename_i hid
          obtain ⟨l, hl, rfl⟩ | ⟨hpanics, -⟩ := Effect.run_eq_some hstep
          · exact .slaveReturns hid hl
          · simp only [functionReturns] at hpanics
            split at hpanics <;> cases hpanics
        · cases hstep

theorem Inv.setLcore {id : ℕ} {l : Lcore F} (h : Inv cfg s)
    (hphase : Phase (s.master.view id) l) : Inv cfg (s.setLcore id l) := by
  intro j hj
  rw [setLcore_master, setLcore_lcore]
  split
  · rename_i hji
    rw [hji]
    exact hphase
  · exact h j hj

theorem inv_step {a : Action F} (h : Inv cfg s) (hstep : step cfg coreRole s a = some t) :
    Inv cfg t := by
  cases (steps_of_step hstep).2 with
  | call happ hlegal =>
      exact h.of_away (by simp [happ, MasterPc.view]) (by simp) (by simp)
  | master hmoves => exact inv_masterStep h hmoves
  | masterReturns hpc =>
      exact h.of_away (by simp [hpc, MasterPc.view]) (by simp [MasterPc.view]) rfl
  | slave hid hmoves => exact h.setLcore ((h _ hid).slaveStep hmoves)
  | slaveReturns hid hmoves => exact h.setLcore ((h _ hid).functionReturns hmoves)
  | masterPanics hpanics => exact h
  | slavePanics hid hpanics => exact h

theorem inv_of_run {acts : List (Action F)}
    (hrun : exec (step cfg coreRole) acts State.init = some s) : Inv cfg s :=
  exec_invariant (fun _ _ _ hs hstep => inv_step hs hstep) (inv_init cfg) hrun

theorem Phase.owed {v : View F} {l : Lcore F} (h : Phase v l) :
    ∃ owed, l.launches = l.called ++ owed ∧ owed.length ≤ 1 := by
  cases h with
  | resting hview hpc hm2s hs2m hstate h => exact ⟨[], by simp [h.called], by simp⟩
  | storeF hpc hm2s hs2m hstate h => exact ⟨_, h.called, le_rfl⟩
  | storeArg hpc hm2s hs2m hstate h => exact ⟨_, h.called, le_rfl⟩
  | write hpc hm2s hs2m hstate h => exact ⟨_, h.called, le_rfl⟩
  | sent hpc hm2s hs2m hstate h => exact ⟨_, h.called, le_rfl⟩
  | taken hpc hm2s hs2m h => exact ⟨_, h.called, le_rfl⟩
  | acking hpc hm2s hs2m hstate h => exact ⟨_, h.called, le_rfl⟩
  | before hack hpc hm2s hstate h => exact ⟨_, h.called, le_rfl⟩
  | during hack hpc hm2s hstate hcalled hreturns => exact ⟨[], by simp [hcalled], by simp⟩
  | after hack hpc hm2s hstate hcalled hreturns hlast => exact ⟨[], by simp [hcalled], by simp⟩
  | leaving hack hpc hm2s hstate h => exact ⟨[], by simp [h.called], by simp⟩
  | early hpc hm2s hs2m hstate h => exact ⟨[], by simp [h.called], by simp⟩

theorem Phase.bytes {v : View F} {l : Lcore F} (h : Phase v l) :
    l.master2slave + l.slave2master ≤ 1 := by
  cases h with
  | before hack hpc hm2s hstate h => rcases hack with ⟨-, hs2m⟩ | ⟨-, hs2m⟩ <;> omega
  | during hack hpc hm2s hstate hcalled hreturns =>
      rcases hack with ⟨-, hs2m⟩ | ⟨-, hs2m⟩ <;> omega
  | after hack hpc hm2s hstate hcalled hreturns hlast =>
      rcases hack with ⟨-, hs2m⟩ | ⟨-, hs2m⟩ <;> omega
  | leaving hack hpc hm2s hstate h => rcases hack with ⟨-, hs2m⟩ | ⟨-, hs2m⟩ <;> omega
  | resting hview hpc hm2s hs2m => omega
  | storeF hpc hm2s hs2m => omega
  | storeArg hpc hm2s hs2m => omega
  | write hpc hm2s hs2m => omega
  | sent hpc hm2s hs2m => omega
  | taken hpc hm2s hs2m => omega
  | acking hpc hm2s hs2m => omega
  | early hpc hm2s hs2m => omega

/-- No launch is lost, run twice, reordered or mixed up with another: in every
interleaving a slave lcore has called the functions launched on it, with their
arguments and in their order, except perhaps the last one; and when the application
sees the lcore out of `RUNNING`, it has called them all and they have returned.  The
pipes never hold more than one byte, so that no write to them can block. -/
theorem launch_calls_once (cfg : Config) (coreRole : ℕ → Role) (acts : List (Action F))
    (s : State F) (hrun : exec (step cfg coreRole) acts State.init = some s) (id : ℕ)
    (hid : id ∈ cfg.rteLcoreForeachSlave) :
    (∃ owed, (s.lcore id).launches = (s.lcore id).called ++ owed ∧ owed.length ≤ 1) ∧
      (∀ result, s.master = .app result → (s.lcore id).state ≠ .running →
        (s.lcore id).launches = (s.lcore id).called ∧
        (s.lcore id).returns.length = (s.lcore id).calls.length) ∧
      (s.lcore id).master2slave + (s.lcore id).slave2master ≤ 1 := by
  have hphase := inv_of_run hrun id hid
  refine ⟨hphase.owed, ?_, hphase.bytes⟩
  intro result happ hstate
  rw [happ] at hphase
  obtain ⟨-, -, -, hsettled⟩ := Phase.rest hphase hstate
  exact ⟨hsettled.called, hsettled.returned⟩

/-- Lcore 2 runs a function launched on it and returns 7. -/
def oneLaunch : List (Action String) :=
  .call (.remoteLaunch (some "f") 4 2) ::
    List.flatten [List.replicate 4 .master, List.replicate 3 (.slave 2), [.master],
      List.replicate 3 (.slave 2), [.slaveReturns 2 7, .slave 2, .slave 2]]

theorem launch_calls_once_oneLaunch :
    (exec (step Config.threeOfEight fun _ => .rte) oneLaunch State.init).map
        (fun s => (s.lcore 2).called) = some [(some "f", 4)] ∧
      ∃ s, exec (step Config.threeOfEight fun _ => .rte) oneLaunch State.init = some s ∧
        (s.lcore 2).master2slave + (s.lcore 2).slave2master ≤ 1 := by
  have hcalled : (exec (step Config.threeOfEight fun _ => .rte) oneLaunch State.init).map
      (fun s => (s.lcore 2).called) = some [(some "f", 4)] := by decide +kernel
  refine ⟨hcalled, ?_⟩
  obtain ⟨s, hrun, -⟩ := Option.map_eq_some_iff.mp hcalled
  exact ⟨s, hrun, (launch_calls_once _ _ _ s hrun 2 (by decide +kernel)).2.2⟩

/-! ## The handshake ends -/

theorem Phase.ack {l : Lcore F} (h : Phase .readAck l) :
    l.slave2master = 1 ∨ (l.pc = .writeAck ∧ l.slave2master = 0) ∨
      (l.pc = .storeRunning ∧ l.slave2master = 0) ∨
      (l.pc = .readCommand ∧ l.master2slave = 1 ∧ l.slave2master = 0) := by
  cases h with
  | resting hview => simp at hview
  | sent hpc hm2s hs2m => exact Or.inr (Or.inr (Or.inr ⟨hpc, hm2s, hs2m⟩))
  | taken hpc hm2s hs2m => exact Or.inr (Or.inr (Or.inl ⟨hpc, hs2m⟩))
  | acking hpc hm2s hs2m => exact Or.inr (Or.inl ⟨hpc, hs2m⟩)
  | before hack => exact Or.inl (by simpa [Acked] using hack)
  | during hack => exact Or.inl (by simpa [Acked] using hack)
  | after hack => exact Or.inl (by simpa [Acked] using hack)
  | leaving hack => exact Or.inl (by simpa [Acked] using hack)
  | early hpc hm2s hs2m => exact Or.inl hs2m

/-- `slaveStep` repeated, while it neither blocks nor panics. -/
def slaveSteps (coreRole : Role) : ℕ → Lcore F → Option (Lcore F)
  | 0, l => some l
  | k + 1, l =>
    match slaveStep coreRole l with
    | .moves l' => slaveSteps coreRole k l'
    | _ => none

theorem Phase.acks {l : Lcore F} (h : Phase .readAck l) (coreRole : Role) :
    ∃ k ≤ 3, ∃ l', slaveSteps coreRole k l = some l' ∧ l'.slave2master = 1 := by
  rcases h.ack with hs2m | ⟨hpc, hs2m⟩ | ⟨hpc, hs2m⟩ | ⟨hpc, hm2s, hs2m⟩
  · exact ⟨0, by omega, l, rfl, hs2m⟩
  · refine ⟨1, by omega, { l with slave2master := 1, pc := .checkFunction }, ?_, rfl⟩
    simp only [slaveSteps, Eal.slaveStep, hpc, hs2m]
  · refine ⟨2, by omega,
      { l with state := .running, slave2master := 1, pc := .checkFunction }, ?_, rfl⟩
    simp only [slaveSteps, Eal.slaveStep, hpc, hs2m]
  · refine ⟨3, by omega,
      { l with master2slave := 0, state := .running, slave2master := 1, pc := .checkFunction },
      ?_, rfl⟩
    simp only [slaveSteps, Eal.slaveStep, hpc, hm2s, hs2m, Nat.one_ne_zero, if_false]

theorem exec_slaveSteps (k : ℕ) {id : ℕ} {l : Lcore F} (hlive : s.aborted = false)
    (hid : id ∈ cfg.rteLcoreForeachSlave)
    (hsteps : slaveSteps (coreRole id) k (s.lcore id) = some l) :
    exec (step cfg coreRole) (List.replicate k (.slave id)) s = some (s.setLcore id l) := by
  induction k generalizing s with
  | zero =>
      cases hsteps
      simp [exec, State.setLcore]
  | succ k ih =>
      unfold slaveSteps at hsteps
      split at hsteps
      · rename_i l' hmoves
        rw [List.replicate_succ, exec_cons_eq_some]
        refine ⟨s.setLcore id l', ?_, ?_⟩
        · simp [step, hlive, hid, hmoves, Effect.run]
        · have hrest := ih (s := s.setLcore id l') hlive (by simpa using hsteps)
          rw [hrest]
          simp [State.setLcore]
      · cases hsteps

/-- A launch always comes back: wherever an interleaving has left the master waiting for
an acknowledgement, at most three accesses of the slave thread later the master reads it
and the launch returns 0. -/
theorem launch_returns (cfg : Config) (coreRole : ℕ → Role) (acts : List (Action F))
    (s : State F) (hrun : exec (step cfg coreRole) acts State.init = some s)
    (hlive : s.aborted = false) (id : ℕ) (hid : id ∈ cfg.rteLcoreForeachSlave)
    (hwait : s.master = .launchReadAck id) :
    ∃ k ≤ 3, ∃ t, exec (step cfg coreRole) (acts ++ List.replicate k (.slave id) ++ [.master])
        State.init = some t ∧ t.master = (s.resume 0).master ∧ t.todo = (s.resume 0).todo := by
  have hphase := inv_of_run hrun id hid
  rw [hwait] at hphase
  simp only [MasterPc.view, if_true] at hphase
  obtain ⟨k, hk, l, hsteps, hack⟩ := hphase.acks (coreRole id)
  have hreach := exec_slaveSteps k hlive hid hsteps
  refine ⟨k, hk, ((s.setLcore id l).setLcore id
    { l with slave2master := l.slave2master - 1 }).resume 0, ?_, ?_, ?_⟩
  · rw [exec_append, exec_append, hrun, Option.bind_some, hreach, Option.bind_some]
    simp [exec, step, State.setLcore, hlive, masterStep, hwait, hack, Effect.run]
  · unfold State.resume
    simp only [setLcore_todo]
    split <;> simp_all
  · unfold State.resume
    simp only [setLcore_todo]
    split <;> simp_all

def halfLaunch : List (Action String) :=
  .call (.remoteLaunch (some "f") 4 2) :: List.replicate 4 .master

theorem launch_returns_halfLaunch :
    (exec (step Config.threeOfEight fun _ => .rte) halfLaunch State.init).map
        (fun s => (s.aborted, s.master)) = some (false, .launchReadAck 2) ∧
      ∃ k ≤ 3, ∃ t, exec (step Config.threeOfEight fun _ => .rte)
        (halfLaunch ++ List.replicate k (.slave 2) ++ [.master]) State.init = some t := by
  have hstate : (exec (step Config.threeOfEight fun _ => .rte) halfLaunch State.init).map
      (fun s => (s.aborted, s.master)) = some (false, .launchReadAck 2) := by decide +kernel
  refine ⟨hstate, ?_⟩
  obtain ⟨s, hrun, hs⟩ := Option.map_eq_some_iff.mp hstate
  obtain ⟨k, hk, t, ht, -⟩ := launch_returns _ _ halfLaunch s hrun
    (congrArg Prod.fst hs) 2 (by decide +kernel) (congrArg Prod.snd hs)
  exact ⟨k, hk, t, ht⟩

end Runs

end SoftwareSwitches.Eal
