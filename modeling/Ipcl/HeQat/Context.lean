/-
The life of a QAT session.

`acquire_qat_devices` initialises the rings and starts two detached threads, the
processing thread and then the scheduler; `release_qat_devices` clears the flags these
threads test, and joins neither.  The scheduler tests the context state, which it also
sets itself when it starts.  The processing thread tests the flag `running` of the
configuration allocated for it, which it also sets itself, after it has started the
instances.

One action is what one thread does between two points where another thread can see or
change what it uses.  A call holds `context_lock` from its first action to its last; the
background threads do not take that lock.  `initialise` stands for the whole
initialisation up to the start of the processing thread.

The state records, besides what the code stores, which threads belong to a session that
has been released, how many threads have been started since the last release, whether a
release has returned with no acquisition since, and how many requests threads of released
sessions have taken from the rings.
-/
import Ipcl.HeQat.BnOps
import Ipcl.HeQat.Ctrl
import Ipcl.HeQat.Requests

namespace Ipcl.HeQat.Context

/-! ### Threads -/

/-- Where a scheduler is in `schedule_requests`. -/
inductive SchedulerPc where
  /-- before it sets the state to running -/
  | start
  /-- at the test of the loop -/
  | check
  /-- before the first section of the pull -/
  | select
  /-- between its sections, with the buffer chosen -/
  | extract (index : Nat)
  /-- before the submission of its list -/
  | submit
  | exited
  deriving DecidableEq, Repr

structure Scheduler (ρ : Type) where
  pc : SchedulerPc
  list : TaskRequestList ρ
  /-- its session has been released -/
  released : Bool

/-- Where a processing thread is in `start_instances`. -/
inductive ProcessorPc where
  /-- before it starts instance `j`, or the loop when all are started -/
  | starting (j : Nat)
  /-- before it marks instance `j` as active -/
  | started (j : Nat)
  /-- at the test of the loop -/
  | check
  /-- before `read_request_list` -/
  | read
  /-- with a batch to offload -/
  | offload
  | exited
  deriving DecidableEq, Repr

/-- A processing thread with its `HE_QAT_Config`. -/
structure Processor (ρ : Type) where
  pc : ProcessorPc
  list : TaskRequestList ρ
  running : Bool
  active : Bool
  /-- its session has been released -/
  released : Bool

/-! ### The state -/

/-- Where the call is that holds `context_lock`. -/
inductive Caller where
  /-- nobody holds it -/
  | idle
  /-- in `acquire_qat_devices`, before the rings are initialised -/
  | initialising
  /-- in `acquire_qat_devices`, before the state is set to active -/
  | initialised
  /-- in `stop_perform_op`, before instance `i`, or at its end -/
  | stopping (i : Nat)
  deriving DecidableEq, Repr

structure State (ρ : Type) where
  contextState : Status
  caller : Caller
  /-- what the last call gave, when it has returned -/
  returned : Option Status
  heQatBuffer : RequestBuffer ρ
  outstanding : OutstandingBuffer ρ
  /-- the flags `active` of `he_qat_inst_config` -/
  instActive : Nat → Bool
  /-- the processing thread whose configuration `he_qat_config` points to -/
  heQatConfig : Option Nat
  schedulers : List (Scheduler ρ)
  processors : List (Processor ρ)
  schedulersStarted : Nat
  processorsStarted : Nat
  /-- a release has returned, and nobody has called acquire since -/
  quiet : Bool
  /-- requests taken by threads of released sessions -/
  lateTakes : Nat

/-- Before the first call. -/
def State.initial {ρ : Type} : State ρ where
  contextState := .inactive
  caller := .idle
  returned := none
  heQatBuffer := RequestBuffer.initial
  outstanding := { OutstandingBuffer.initial with freeBuffer := fun _ => 0 }
  instActive _ := false
  heQatConfig := none
  schedulers := []
  processors := []
  schedulersStarted := 0
  processorsStarted := 0
  quiet := false
  lateTakes := 0

variable {ρ : Type}

def State.setScheduler (s : State ρ) (i : Nat) (t : Scheduler ρ) : State ρ :=
  { s with schedulers := s.schedulers.set i t }

def State.setProcessor (s : State ρ) (i : Nat) (t : Processor ρ) : State ρ :=
  { s with processors := s.processors.set i t }

/-! ### `acquire_qat_devices` -/

/-- How the start of the memory driver and of the QAT service goes. -/
inductive Startup where
  | memFails
  | serviceFails
  | noEndpoint
  | succeeds
  deriving DecidableEq, Repr

/-- Its first part, up to the initialisation. -/
def acquire (s : State ρ) (startup : Startup) : Section (State ρ) := do
  waitWhile (s.caller ≠ .idle)
  let s := { s with quiet := false }
  if s.contextState = .active then pure { s with returned := some .success }
  else match startup with
    | .succeeds => pure { s with caller := .initialising, returned := none }
    | _ => pure { s with returned := some .fail }

/-- After the initialisation, and the start of the processing thread, whose status is not
looked at. -/
def State.initialised (s : State ρ) (created : Bool) : State ρ :=
  { s with
    caller := .initialised
    -- `next_data_out` is left as it is
    heQatBuffer := { RequestBuffer.initial with nextDataOut := s.heQatBuffer.nextDataOut }
    outstanding := OutstandingBuffer.initial
    instActive := fun _ => false
    heQatConfig := some s.processors.length
    processors := s.processors ++ [{
      pc := if created then .starting 0 else .exited
      list := TaskRequestList.empty
      running := false
      active := false
      released := false }]
    processorsStarted := s.processorsStarted + if created then 1 else 0 }

/-- The initialisation. -/
def initialise (s : State ρ) (created : Bool) : Section (State ρ) := do
  waitWhile (s.caller ≠ .initialising)
  pure (s.initialised created)

/-- How the start of the scheduler goes. -/
inductive Manager where
  | created
  | detachFails
  | createFails
  deriving DecidableEq, Repr

/-- The state is active and the scheduler is started, as far as that goes. -/
def State.activated (s : State ρ) (manager : Manager) : State ρ :=
  let s := { s with contextState := .active, caller := .idle }
  let launched := { s with
    schedulers := s.schedulers ++ [⟨.start, TaskRequestList.empty, false⟩]
    schedulersStarted := s.schedulersStarted + 1 }
  match manager with
  | .created => { launched with returned := some .success }
  | .detachFails => launched
  | .createFails => s

/-- Its last part.  Where the scheduler does not start as it should, the call has given back
the lock and goes on as a call of `release_qat_devices`. -/
def activate (s : State ρ) (manager : Manager) : Section (State ρ) := do
  waitWhile (s.caller ≠ .initialised)
  pure (s.activated manager)

/-! ### `release_qat_devices` -/

/-- The call returns, and the threads there are belong to a released session. -/
def State.releaseReturns (s : State ρ) : State ρ :=
  { s with
    caller := .idle
    returned := some .success
    schedulers := s.schedulers.map fun t => { t with released := true }
    processors := s.processors.map fun t => { t with released := true }
    schedulersStarted := 0
    processorsStarted := 0
    quiet := true }

/-- `stop_instances` has cleared the flags of the configuration, if there is one. -/
def State.flagsCleared (s : State ρ) : State ρ :=
  match s.heQatConfig with
  | none => { s with caller := .stopping numActiveInstances }
  | some c => { s with
      caller := .stopping 0
      processors := s.processors.modify c fun t => { t with active := false, running := false } }

/-- Its first part, up to the loop of `stop_perform_op`. -/
def release (s : State ρ) : Section (State ρ) := do
  waitWhile (s.caller ≠ .idle)
  if s.contextState = .inactive then pure s.releaseReturns
  else pure s.flagsCleared

/-- One round of `stop_perform_op`, which waits until the instance is active. -/
def stopInstance (s : State ρ) : Section (State ρ) :=
  match s.caller with
  | .stopping i => do
      waitWhile (i ≥ numActiveInstances ∨ s.instActive i = false)
      pure { s with caller := .stopping (i + 1) }
  | _ => .error .blocked

/-- Its last part. -/
def deactivate (s : State ρ) : Section (State ρ) := do
  waitWhile (s.caller ≠ .stopping numActiveInstances)
  pure { s with contextState := .inactive }.releaseReturns

/-! ### The background threads -/

/-- `schedule_requests` -/
def scheduleRequests (s : State ρ) (i : Nat) (t : Scheduler ρ) : Section (State ρ) :=
  match t.pc with
  | .start => pure ({ s with contextState := .running }.setScheduler i { t with pc := .check })
  | .check => pure (s.setScheduler i
      { t with pc := if s.contextState = .inactive then .exited else .select })
  | .select => do
      let index ← pullSelect s.outstanding
      pure (s.setScheduler i { t with
        list := { t.list with count := 0 }
        pc := match index with
          | some k => .extract k
          | none => .submit })
  | .extract k => do
      let b ← load bufferCount s.outstanding.buffer k
      let (l, b') ← pullExtract t.list b bufferSize
      pure ({ s with
        outstanding := { s.outstanding with buffer := Function.update s.outstanding.buffer k b' }
        lateTakes := s.lateTakes + if t.released then l.count else 0 }.setScheduler i
          { t with list := l, pc := .submit })
  | .submit => do
      let (b, l) ← submitRequestList s.heQatBuffer t.list
      pure ({ s with heQatBuffer := b }.setScheduler i { t with list := l, pc := .check })
  | .exited => .error .blocked

/-- `start_instances`.  `ok` says how the instance starts, or that the device takes the batch
without asking to retry, and `maxRequests` how many requests it can take. -/
def startInstances (s : State ρ) (i : Nat) (t : Processor ρ) (ok : Bool) (maxRequests : Nat) :
    Section (State ρ) :=
  match t.pc with
  | .starting j =>
      if j < numActiveInstances then do
        waitWhile (s.instActive j = true)
        pure (s.setProcessor i { t with pc := if ok then .started j else .exited })
      else pure (s.setProcessor i { t with running := true, active := true, pc := .check })
  | .started j => pure ({ s with instActive := Function.update s.instActive j true }.setProcessor i
      { t with pc := .starting (j + 1) })
  | .check => pure (s.setProcessor i { t with pc := if t.running then .read else .exited })
  | .read => do
      let (l, b) ← readRequestList t.list s.heQatBuffer maxRequests
      pure ({ s with
        heQatBuffer := b
        lateTakes := s.lateTakes + if t.released then l.count else 0 }.setProcessor i
          { t with list := l, pc := .offload })
  | .offload => pure (s.setProcessor i { t with
      list :=
        { request := fun k => if k < t.list.count then none else t.list.request k, count := 0 }
      pc := if ok then .check else .exited })
  | .exited => .error .blocked

/-! ### The system -/

inductive Action (ρ : Type) where
  | acquire (startup : Startup)
  | initialise (created : Bool)
  | activate (manager : Manager)
  | release
  | stopInstance
  | deactivate
  /-- The next section of scheduler `i`. -/
  | scheduler (i : Nat)
  /-- The next section of processing thread `i`. -/
  | processor (i : Nat) (ok : Bool) (maxRequests : Nat)
  /-- An API thread takes an outstanding buffer. -/
  | acquireBuffer (bufferId : Nat)
  /-- An API thread gives one back. -/
  | releaseBuffer (bufferId : Nat)
  /-- An API thread submits a request to an outstanding buffer. -/
  | submit (bufferId : Nat) (r : ρ)
  /-- An API thread submits a request to the internal ring. -/
  | submitDirect (r : ρ)

def step (s : State ρ) : Action ρ → Section (State ρ)
  | .acquire startup => acquire s startup
  | .initialise created => initialise s created
  | .activate manager => activate s manager
  | .release => release s
  | .stopInstance => stopInstance s
  | .deactivate => deactivate s
  | .scheduler i =>
      match s.schedulers[i]? with
      | some t => scheduleRequests s i t
      | none => .error .blocked
  | .processor i ok maxRequests =>
      match s.processors[i]? with
      | some t => startInstances s i t ok maxRequests
      | none => .error .blocked
  | .acquireBuffer bufferId => do
      let (_, o) ← HeQat.acquireBuffer s.outstanding bufferId
      pure { s with outstanding := o }
  | .releaseBuffer bufferId => do
      let o ← HeQat.releaseBuffer s.outstanding bufferId
      pure { s with outstanding := o }
  | .submit bufferId r => do
      let b ← load bufferCount s.outstanding.buffer bufferId
      let b' ← submitRequest b r
      pure { s with outstanding := { s.outstanding with
        buffer := Function.update s.outstanding.buffer bufferId b' } }
  | .submitDirect r => do
      let b ← submitRequest s.heQatBuffer r
      pure { s with heQatBuffer := b }

def system (ρ : Type) : TransitionSystem (State ρ) (Action ρ) where
  init s := s = State.initial
  step s a := (step s a).toOption

end Ipcl.HeQat.Context
