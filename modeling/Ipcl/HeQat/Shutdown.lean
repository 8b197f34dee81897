/-
Start-up against shutdown.

`start_instances` starts the instances one after another.  For each of them it signals `ready`
and gives back the mutex, creates a polling thread, and only then marks the instance as active,
without the mutex and without a signal.  `stop_perform_op` takes the mutexes one after another
and waits on `ready` until the instance is active.  From then on these variables are signalled
by the processing loop alone: for each request that the device has accepted, the variable of the
next instance, again without the mutex.

The state is that of one session: its processing thread, its polling threads, and the one call of
`release_qat_devices` that gets beyond `context_lock`.  An action is a single access.  So the
test in `stop_perform_op` and the sleep after it are two, and a store or a signal that is made
without the mutex can fall between them.  Who holds the mutex of an instance follows from where
the threads are.  The release may wake for no reason; the processing thread never sleeps on
`ready`, since an instance is not active before it has been started.
-/
import Ipcl.HeQat.Requests
import Ipcl.Lib.Transition

namespace Ipcl.HeQat.Shutdown

/-! ### Threads -/

/-- Where the processing thread is in `start_instances`. -/
inductive ProcessorPc where
  /-- before it takes the mutex of instance `j`, or before the loop when all are started -/
  | lock (j : Nat)
  /-- at its wait, with the mutex -/
  | test (j : Nat)
  /-- before it creates the polling thread -/
  | create (j : Nat)
  /-- before it marks the instance as active -/
  | activate (j : Nat)
  /-- at the test of the loop -/
  | check
  /-- before `read_request_list` -/
  | read
  /-- with requests left of its batch -/
  | offload (left : Nat)
  | exited
  deriving DecidableEq, Repr

/-- Where the release is in `stop_instances`. -/
inductive ReleasePc where
  /-- not called -/
  | idle
  /-- before it clears the flags of the configuration -/
  | clear
  /-- before it takes the mutex of instance `i`, or before it returns when all are stopped -/
  | lock (i : Nat)
  /-- at the test around its wait, with the mutex -/
  | test (i : Nat)
  /-- before it goes to sleep, with the mutex -/
  | wait (i : Nat)
  | asleep (i : Nat)
  /-- before it stops the instance, with the mutex -/
  | stop (i : Nat)
  | returned
  deriving DecidableEq, Repr

/-- Where a polling thread is in `start_inst_polling`. -/
inductive PollerPc where
  | none
  /-- before it sets its flag -/
  | created
  /-- at the test of its loop -/
  | polling
  | exited
  deriving DecidableEq, Repr

def ProcessorPc.Holds : ProcessorPc → Nat → Prop
  | .test j, i => j = i
  | _, _ => False

def ReleasePc.Holds : ReleasePc → Nat → Prop
  | .test j, i | .wait j, i | .stop j, i => j = i
  | _, _ => False

instance (pc : ProcessorPc) (i : Nat) : Decidable (pc.Holds i) := by
  unfold ProcessorPc.Holds
  split <;> infer_instance

instance (pc : ReleasePc) (i : Nat) : Decidable (pc.Holds i) := by
  unfold ReleasePc.Holds
  split <;> infer_instance

/-! ### The state -/

/-- The fields of `HE_QAT_InstConfig` are kept one by one. -/
structure State where
  instActive : Nat → Bool
  instPolling : Nat → Bool
  instRunning : Nat → Bool
  instStatus : Nat → CpaStatus
  /-- the flag `active` of `HE_QAT_Config` -/
  active : Bool
  /-- the flag `running` of `HE_QAT_Config` -/
  running : Bool
  nextInstance : Nat
  processor : ProcessorPc
  release : ReleasePc
  pollers : Nat → PollerPc

/-- When the processing thread has been created.  `next_instance` is static, so it is what the
last session has left. -/
def State.initial (nextInstance : Nat) : State where
  instActive _ := false
  instPolling _ := false
  instRunning _ := false
  instStatus _ := .fail
  active := false
  running := false
  nextInstance := nextInstance
  processor := .lock 0
  release := .idle
  pollers _ := .none

/-- `pthread_cond_signal` on the variable of instance `i`. -/
def ReleasePc.signal (pc : ReleasePc) (i : Nat) : ReleasePc :=
  if pc = .asleep i then .lock i else pc

/-! ### The threads -/

/-- `start_instances`, where nothing but the state decides. -/
def startInstances (s : State) : Option State :=
  match s.processor with
  | .lock j =>
      if j < numActiveInstances then
        if s.release.Holds j then none else some { s with processor := .test j }
      else some { s with running := true, active := true, processor := .check }
  | .activate j => some { s with
      instActive := Function.update s.instActive j true
      instRunning := Function.update s.instRunning j true
      processor := .lock (j + 1) }
  | .check => some { s with processor := if s.running then .read else .exited }
  | .offload 0 => some { s with processor := .check }
  | _ => none

/-- The instance is started, and its address translation is set. -/
def startInstance (s : State) (status translated : CpaStatus) : Option State :=
  match s.processor with
  | .test j =>
      if s.instActive j then none
      else
        some { s with
          instStatus := Function.update s.instStatus j status
          release := s.release.signal j
          processor := if status = .success ∧ translated = .success then .create j else .exited }
  | _ => none

/-- The polling thread is created and detached. -/
def createPoller (s : State) (created detached : Bool) : Option State :=
  match s.processor with
  | .create j =>
      some { s with
        pollers := if created then Function.update s.pollers j .created else s.pollers
        processor := if created && detached then .activate j else .exited }
  | _ => none

/-- `read_request_list` has taken this many requests. -/
def readRequests (s : State) (count : Nat) : Option State :=
  match s.processor with
  | .read => some { s with processor := .offload count }
  | _ => none

/-- The device replies to a request. -/
def offload (s : State) (status : CpaStatus) : Option State :=
  match s.processor with
  | .offload (left + 1) =>
      match status with
      | .success =>
          some { s with
            nextInstance := (s.nextInstance + 1) % numActiveInstances
            release := s.release.signal ((s.nextInstance + 1) % numActiveInstances)
            processor := .offload left }
      | .retry => some { s with processor := .exited }
      | _ => some { s with processor := .offload left }
  | _ => none

/-- `stop_instances` and `stop_perform_op`, from the call on. -/
def stopInstances (s : State) : Option State :=
  match s.release with
  | .clear => some { s with active := false, running := false, release := .lock 0 }
  | .lock i =>
      if i < numActiveInstances then
        if s.processor.Holds i then none else some { s with release := .test i }
      else some { s with release := .returned }
  | .test i =>
      if s.instActive i then
        let cleared := fun flag : Nat → Bool =>
          if s.instStatus i = .success then Function.update flag i false else flag
        some { s with
          instPolling := cleared s.instPolling
          instRunning := cleared s.instRunning
          release := .stop i }
      else some { s with release := .wait i }
  | .wait i => some { s with release := .asleep i }
  -- nobody else sleeps on the variable that is signalled here
  | .stop i => some { s with release := .lock (i + 1) }
  | _ => none

/-- `start_inst_polling` -/
def startInstPolling (s : State) (i : Nat) : Option State :=
  match s.pollers i with
  | .created => some { s with
      instPolling := Function.update s.instPolling i true
      pollers := Function.update s.pollers i .polling }
  | .polling => some { s with
      pollers := Function.update s.pollers i (if s.instPolling i then .polling else .exited) }
  | _ => none

/-! ### The system -/

inductive Action where
  /-- The next access of the processing thread. -/
  | processor
  | startInstance (status translated : CpaStatus)
  | createPoller (created detached : Bool)
  | read (count : Nat)
  | offload (status : CpaStatus)
  /-- The call of `release_qat_devices` comes to `stop_instances`. -/
  | call
  /-- The next access of the release. -/
  | release
  /-- The release wakes for no reason. -/
  | wake
  /-- The next access of polling thread `i`. -/
  | poller (i : Nat)
  deriving DecidableEq, Repr

def step (s : State) : Action → Option State
  | .processor => startInstances s
  | .startInstance status translated => startInstance s status translated
  | .createPoller created detached => createPoller s created detached
  | .read count => readRequests s count
  | .offload status => offload s status
  | .call => if s.release = .idle then some { s with release := .clear } else none
  | .release => stopInstances s
  | .wake =>
      match s.release with
      | .asleep i => some { s with release := .lock i }
      | _ => none
  | .poller i => startInstPolling s i

def system : TransitionSystem State Action where
  init s := ∃ nextInstance < numActiveInstances, s = State.initial nextInstance
  step := step

end Ipcl.HeQat.Shutdown
