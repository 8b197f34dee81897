/-
What `acquire_qat_devices` takes and what it gives back when it fails.

Besides starting its threads a session has the memory driver initialised and the SAL
process started, and it has looked up the instances.  Each look-up takes the next of the
handles that the first one has found, in turn; their number and the position are static
variables.  What the `cpaCy` calls and the driver do is part of the actions.

A call that cannot create or detach the scheduler gives back the lock and goes on as a
call of `release_qat_devices`.  The calls of acquire and release are made one after the
other, so nobody else comes in between; the threads go on all the time.

The state records the last call of acquire, with what was held when it was made, and the
calls that have returned `HE_QAT_STATUS_FAIL`.
-/
import Ipcl.HeQat.Context

namespace Ipcl.HeQat.Devices

/-! ### `get_qat_instance` -/

/-- `MAX_INSTANCES` -/
def maxInstances : Nat := 1024

/-- The static variables of `get_qat_instance`. -/
structure Instances where
  numInstances : Nat
  nextInstance : Nat
  /-- NULL is `none` -/
  cyInstHandles : Nat → Option Nat

/-- How an enumeration goes. -/
structure Enumeration where
  /-- the status of `cpaCyGetNumInstances` -/
  status : CpaStatus
  /-- what it leaves in `numInstances` -/
  num : UInt16
  /-- what `cpaCyGetInstances` leaves in the array -/
  handles : Nat → Option Nat
  /-- the status of `cpaCyInstanceGetInfo2` for each handle -/
  info : Nat → CpaStatus

/-- The number of instances that are used. -/
def Enumeration.count (e : Enumeration) : Nat :=
  let n := if e.num.toNat ≥ maxInstances then maxInstances else e.num.toNat
  if n ≥ numActiveInstances then numActiveInstances else n

/-- `get_qat_instance` -/
def getQatInstance (e : Enumeration) (c : Instances) : Option Nat × Instances :=
  if c.numInstances = 0 then
    let c := { c with numInstances := e.count }
    if e.status ≠ .success then (none, c)
    else if c.numInstances > 0 then
      let c := { c with
        cyInstHandles := fun i => if i < c.numInstances then e.handles i else c.cyInstHandles i }
      -- the status of `cpaCyGetInstances` is written over by those of the loop
      if ∃ i < c.numInstances, e.info i ≠ .success then (none, c)
      else (c.cyInstHandles c.nextInstance, c)
    else (none, c)
  else
    let c := { c with nextInstance := (c.nextInstance + 1) % c.numInstances }
    (c.cyInstHandles c.nextInstance, c)

/-- The loop of `acquire_qat_devices`: so many look-ups, up to the first that gives NULL. -/
def lookUp (e : Enumeration) : (n : Nat) → (c : Instances) → Bool × Instances
  | 0, c => (true, c)
  | n + 1, c =>
      match getQatInstance e c with
      | (none, c) => (false, c)
      | (some _, c) => lookUp e n c

/-! ### The state -/

/-- What a call can leave behind, other than threads. -/
structure Held where
  qaeMem : Bool
  sal : Bool
  lock : Bool
  contextState : Status
  numInstances : Nat
  nextInstance : Nat
  deriving DecidableEq

/-- What is held before the first call. -/
def Held.nothing : Held := ⟨false, false, false, .inactive, 0, 0⟩

/-- A call of acquire: what was held when it was made, and how many threads had been started. -/
structure Call where
  before : Held
  schedulers : Nat
  processors : Nat

/-- A call that has returned `HE_QAT_STATUS_FAIL`. -/
structure Failure where
  before : Held
  after : Held
  /-- the threads it has started have ended -/
  ended : Bool
  deriving DecidableEq

structure State (ρ : Type) where
  context : Context.State ρ
  /-- the memory driver is initialised -/
  qaeMem : Bool
  /-- the SAL process is started -/
  sal : Bool
  instances : Instances
  call : Call
  /-- the call of acquire goes on as a call of release -/
  failing : Bool
  failures : List Failure

/-- Before the first call. -/
def State.initial {ρ : Type} : State ρ where
  context := Context.State.initial
  qaeMem := false
  sal := false
  instances := { numInstances := 0, nextInstance := 0, cyInstHandles := fun _ => none }
  call := ⟨Held.nothing, 0, 0⟩
  failing := false
  failures := []

variable {ρ : Type}

def State.held (s : State ρ) : Held where
  qaeMem := s.qaeMem
  sal := s.sal
  lock := s.context.caller ≠ .idle
  contextState := s.context.contextState
  numInstances := s.instances.numInstances
  nextInstance := s.instances.nextInstance

/-- The threads started since the call have ended. -/
def State.ended (s : State ρ) : Bool :=
  (s.context.schedulers.drop s.call.schedulers).all (fun t => t.pc = .exited) &&
    (s.context.processors.drop s.call.processors).all (fun t => t.pc = .exited)

/-- The call returns `HE_QAT_STATUS_FAIL`. -/
def State.fails (s : State ρ) : State ρ :=
  { s with failing := false, failures := ⟨s.call.before, s.held, s.ended⟩ :: s.failures }

/-! ### `acquire_qat_devices` and `release_qat_devices` -/

/-- The first part of `acquire_qat_devices`. -/
def acquire (s : State ρ) (memInit salStart : CpaStatus) (e : Enumeration) :
    Section (State ρ) := do
  waitWhile (s.failing = true)
  let s := { s with call := ⟨s.held, s.context.schedulers.length, s.context.processors.length⟩ }
  if s.context.contextState = .active then do
    let context ← Context.step s.context (.acquire .succeeds)
    pure { s with context := context }
  else if memInit ≠ .success then do
    let context ← Context.step s.context (.acquire .memFails)
    pure { s with context := context }.fails
  else if salStart ≠ .success then do
    let context ← Context.step s.context (.acquire .serviceFails)
    pure { s with context := context, qaeMem := false }.fails
  else
    let found := lookUp e numActiveInstances s.instances
    let s := { s with qaeMem := true, sal := true, instances := found.2 }
    if found.1 then do
      let context ← Context.step s.context (.acquire .succeeds)
      pure { s with context := context }
    else do
      let context ← Context.step s.context (.acquire .noEndpoint)
      pure { s with context := context }.fails

/-- Its last part, or the beginning of the release it goes on as. -/
def activate (s : State ρ) (manager : Context.Manager) : Section (State ρ) := do
  let context ← Context.step s.context (.activate manager)
  pure { s with context := context, failing := manager ≠ .created }

/-- The first part of `release_qat_devices`, which is all of it when the state is inactive. -/
def release (s : State ρ) : Section (State ρ) := do
  let context ← Context.step s.context .release
  let s := { s with context := context }
  pure (if s.failing = true ∧ context.caller = .idle then s.fails else s)

/-- Its last part. -/
def deactivate (s : State ρ) : Section (State ρ) := do
  let context ← Context.step s.context .deactivate
  let s := { s with
    context := context
    sal := false
    qaeMem := false
    instances := { s.instances with numInstances := 0, nextInstance := 0 } }
  pure (if s.failing then s.fails else s)

/-! ### The system -/

/-- What the threads of the sessions and the API threads do. -/
inductive Background (ρ : Type) where
  | scheduler (i : Nat)
  | processor (i : Nat) (ok : Bool) (maxRequests : Nat)
  | acquireBuffer (bufferId : Nat)
  | releaseBuffer (bufferId : Nat)
  | submit (bufferId : Nat) (r : ρ)
  | submitDirect (r : ρ)

def Background.action : Background ρ → Context.Action ρ
  | .scheduler i => .scheduler i
  | .processor i ok maxRequests => .processor i ok maxRequests
  | .acquireBuffer bufferId => .acquireBuffer bufferId
  | .releaseBuffer bufferId => .releaseBuffer bufferId
  | .submit bufferId r => .submit bufferId r
  | .submitDirect r => .submitDirect r

inductive Action (ρ : Type) where
  | acquire (memInit salStart : CpaStatus) (e : Enumeration)
  | initialise (created : Bool)
  | activate (manager : Context.Manager)
  | release
  | stopInstance
  | deactivate
  | background (a : Background ρ)

def step (s : State ρ) : Action ρ → Section (State ρ)
  | .acquire memInit salStart e => acquire s memInit salStart e
  | .initialise created => do
      let context ← Context.step s.context (.initialise created)
      pure { s with context := context }
  | .activate manager => activate s manager
  | .release => release s
  | .stopInstance => do
      let context ← Context.step s.context .stopInstance
      pure { s with context := context }
  | .deactivate => deactivate s
  | .background a => do
      let context ← Context.step s.context a.action
      pure { s with context := context }

def system (ρ : Type) : TransitionSystem (State ρ) (Action ρ) where
  init s := s = State.initial
  step s a := (step s a).toOption

end Ipcl.HeQat.Devices
