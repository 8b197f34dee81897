/-
What becomes of a request once it has been read.

The processing thread offers the requests to the device one by one, and the device
answers an accepted one later through a callback, from a polling thread.  Both write
the status of the request; the caller waits until it is `HE_QAT_STATUS_READY`.

The answer to an offer, and when and how a callback comes, are up to the device, so
they are part of the actions.  With `sync` the processing thread also waits for the
callback of the request it has just offered; the wait for the semaphore can be
interrupted.
-/
import Ipcl.HeQat.Types
import Ipcl.Lib.Transition

namespace Ipcl.HeQat

/-- `HE_QAT_STATUS` -/
inductive Status where
  | active
  | running
  | invalidParam
  | ready
  | success
  | fail
  | inactive
  deriving DecidableEq, Repr

/-- `CpaStatus`, as far as the code tells its values apart. -/
inductive CpaStatus where
  | success
  | fail
  | retry
  | other (code : Int)
  deriving DecidableEq, Repr

/-- `HE_QAT_OP` -/
inductive Op where
  | none
  | modExp
  deriving DecidableEq, Repr

/-- What a request's `callback_func` points to. -/
inductive Callback where
  | bnModExp
  | bignumModExp
  deriving DecidableEq, Repr

/-- `HE_QAT_TaskRequest`; `opData` is a pointer. -/
structure TaskRequest where
  opType : Op
  opStatus : CpaStatus
  opResult : List Nat
  opData : Nat
  opOutput : List Nat
  callbackFunc : Callback
  requestStatus : Status
  deriving DecidableEq, Repr

/-- A request as the API functions pack it.  It comes from `calloc`, which leaves zero in
its status: that is `HE_QAT_STATUS_SUCCESS`. -/
def TaskRequest.packed (callbackFunc : Callback) (opData : Nat) : TaskRequest where
  opType := .modExp
  opStatus := .success
  opResult := []
  opData := opData
  opOutput := []
  callbackFunc := callbackFunc
  requestStatus := .success

/-- The condition the loops of `getBnModExpRequest` and `release_bnModExp_buffer` wait
for. -/
def TaskRequest.WaitOver (t : TaskRequest) : Prop := t.requestStatus = .ready

instance (t : TaskRequest) : Decidable t.WaitOver := by
  unfold TaskRequest.WaitOver
  infer_instance

/-! ### The callbacks -/

/-- `HE_QAT_bnModExpCallback` -/
def bnModExpCallback (request : TaskRequest) (status : CpaStatus) (pOpData : Nat) :
    TaskRequest :=
  let request := { request with opStatus := status }
  if status = .success then
    if pOpData = request.opData then
      { request with requestStatus := .ready, opOutput := request.opResult }
    else { request with requestStatus := .fail }
  else request

/-- `HE_QAT_BIGNUMModExpCallback`; `r` is what `BN_bin2bn` returns. -/
def bignumModExpCallback (request : TaskRequest) (status : CpaStatus) (pOpData : Nat)
    (r : Option (List Nat)) : TaskRequest :=
  let request := { request with opStatus := status }
  if status = .success then
    if pOpData = request.opData then
      let request := { request with requestStatus := .ready }
      match r with
      | some out => { request with opOutput := out }
      | none => { request with requestStatus := .fail }
    else { request with requestStatus := .fail }
  else request

/-- How the device answers a request. -/
structure Answer where
  status : CpaStatus
  pOpData : Nat
  /-- what it has written to the result -/
  out : List Nat
  /-- what `BN_bin2bn` makes of it -/
  bin2bn : Option (List Nat)
  deriving DecidableEq, Repr

/-- The call of a request's callback. -/
def TaskRequest.answered (request : TaskRequest) (a : Answer) : TaskRequest :=
  let request := { request with opResult := a.out }
  match request.callbackFunc with
  | .bnModExp => bnModExpCallback request a.status a.pOpData
  | .bignumModExp => bignumModExpCallback request a.status a.pOpData a.bin2bn

namespace Offload

/-! ### The processing loop -/

structure State (ι : Type) where
  tasks : ι → Option TaskRequest
  /-- the requests still to be offered -/
  queue : List ι
  /-- the variable `status` of the loop -/
  status : CpaStatus
  /-- the request whose completion the loop waits for -/
  waiting : Option ι
  /-- the completions that have been posted -/
  posted : List ι
  inDevice : List ι
  /-- the thread has ended itself -/
  exited : Bool

/-- The instances have been started, so the last status was a success. -/
def State.initial {ι : Type} : State ι where
  tasks _ := none
  queue := []
  status := .success
  waiting := none
  posted := []
  inDevice := []
  exited := false

inductive Action (ι : Type) where
  /-- An API function submits a new request. -/
  | submit (r : ι) (callbackFunc : Callback) (opData : Nat)
  /-- The loop offers the next request, and `cpaCyLnModExp` returns `result`. -/
  | offer (result : CpaStatus)
  /-- The device answers. -/
  | callback (r : ι) (a : Answer)
  /-- The wait for the completion ends. -/
  | completed
  /-- The wait for the completion fails. -/
  | interrupted
  deriving DecidableEq

variable {ι : Type} [DecidableEq ι]

/-- What the loop writes into a request it could not offload. -/
def failed (request : TaskRequest) : TaskRequest :=
  { request with opStatus := .fail, requestStatus := .fail }

/-- One round of the loop, up to the wait for the completion. -/
def offer (sync : Bool) (s : State ι) (r : ι) (rest : List ι) (request : TaskRequest)
    (result : CpaStatus) : State ι :=
  let status := match request.opType with
    | .modExp => result
    | .none => s.status
  let s := { s with queue := rest, status := status }
  -- the thread gives up on everything when the device is busy
  if status = .retry then { s with exited := true }
  else if status = .success then { s with
    inDevice := match request.opType with
      | .modExp => r :: s.inDevice
      | .none => s.inDevice
    waiting := if sync then some r else none }
  else { s with tasks := Function.update s.tasks r (some (failed request)) }

def step (sync : Bool) (s : State ι) : Action ι → Option (State ι)
  | .submit r callbackFunc opData =>
      if (s.tasks r).isSome then none
      else some { s with
        tasks := Function.update s.tasks r (some (.packed callbackFunc opData))
        queue := s.queue ++ [r] }
  | .offer result =>
      if s.exited ∨ s.waiting.isSome then none
      else match s.queue with
        | [] => none
        | r :: rest => (s.tasks r).map fun request => offer sync s r rest request result
  | .callback r a =>
      if r ∈ s.inDevice then
        (s.tasks r).map fun request => { s with
          tasks := Function.update s.tasks r (some (request.answered a))
          inDevice := s.inDevice.erase r
          posted := if sync then r :: s.posted else s.posted }
      else none
  | .completed =>
      match s.waiting with
      | some r => if r ∈ s.posted then some { s with waiting := none } else none
      | none => none
  | .interrupted =>
      match s.waiting with
      | some r => (s.tasks r).map fun request => { s with
          tasks := Function.update s.tasks r (some (failed request))
          waiting := none }
      | none => none

def system (ι : Type) [DecidableEq ι] (sync : Bool) : TransitionSystem (State ι) (Action ι) where
  init s := s = State.initial
  step := step sync

/-! ### Waiting for ever -/

omit [DecidableEq ι] in
/-- Neither the loop nor the device has anything more to do with the request. -/
def State.Finished (s : State ι) (r : ι) : Prop :=
  (s.tasks r).isSome ∧ r ∉ s.queue ∧ r ∉ s.inDevice

/-- A finished request whose caller waits, now and after any steps. -/
structure Stuck (sync : Bool) (s : State ι) (r : ι) : Prop where
  finished : s.Finished r
  forever : ∀ as s', (system ι sync).run s as = some s' →
    ∀ request, s'.tasks r = some request → ¬ request.WaitOver

end Offload

end Ipcl.HeQat
