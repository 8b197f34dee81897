/-
How the processing thread keeps the device from being overrun.

`start_instances` counts what the device has accepted, and the callbacks count what it has
answered.  From the difference the loop computes how much more it may read from the ring,
and as long as that is too little it sleeps.  An answer may come before the loop has counted
the request, so within a batch the second counter can be ahead of the first.

The threads are those of the runtime.  Of its actions the loop takes the read, of as many
requests as it has found room for, and the offloading of the requests read; the device says
which of them it accepts.  The thread ends itself when the device is busy, and when
`release_qat_devices` has cleared its flag; the next acquisition starts it anew, with new
rings and the same counters.  All requests are for a modular exponentiation.

The counters are `unsigned long` and wrap around, so the state also records how often each
of them has been incremented.
-/
import Ipcl.HeQat.Pipeline
import Ipcl.HeQat.Requests

namespace Ipcl.HeQat.Throttle

/-- `NUM_PKE_SLICES` -/
def numPkeSlices : UInt64 := 6

/-- `restart_threshold` -/
def restartThreshold : UInt64 := numPkeSlices * UInt64.ofNat numActiveInstances

/-- `max_pending` -/
def maxPending : UInt64 := 2 * numPkeSlices * UInt64.ofNat numActiveInstances

/-- Where the processing thread is in `start_instances`. -/
inductive Pc where
  /-- at the test of the loop -/
  | test
  /-- where it computes `pending` -/
  | compute
  /-- in `read_request_list` -/
  | read (maxRequests : UInt32)
  /-- at the head of the loop over the batch -/
  | offload
  /-- with an accepted request that is not counted yet -/
  | accepted
  | exited
  deriving DecidableEq, Repr

structure State (τ ι : Type) where
  runtime : Runtime.State τ ι
  pc : Pc
  requestCount : UInt64
  responseCount : UInt64
  /-- the requests the device has accepted and not answered -/
  inDevice : List (Request ι)
  /-- how often `request_count` has been incremented -/
  requests : Nat
  /-- how often `response_count` has been incremented -/
  responses : Nat

def State.initial {τ ι : Type} : State τ ι where
  runtime := Runtime.State.initial
  pc := .test
  requestCount := 0
  responseCount := 0
  inDevice := []
  requests := 0
  responses := 0

/-- The sections of the other threads. -/
inductive Other (τ ι : Type) where
  | acquire (t : τ) (bufferId : Nat)
  | release (t : τ) (bufferId : Nat)
  | submit (t : τ) (bufferId : Nat) (ref : ι)
  | submitDirect (ref : ι)
  | select
  | extract
  | submitList

def Other.action {τ ι : Type} : Other τ ι → Runtime.Action τ ι
  | .acquire t bufferId => .acquire t bufferId
  | .release t bufferId => .release t bufferId
  | .submit t bufferId ref => .submit t bufferId ref
  | .submitDirect ref => .submitDirect ref
  | .select => .select
  | .extract => .extract
  | .submitList => .submitList

inductive Action (τ ι : Type) where
  | other (a : Other τ ι)
  /-- The loop tests the flag `running` of its configuration. -/
  | test (running : Bool)
  /-- It computes `pending`, and goes to sleep or to the read. -/
  | compute
  /-- It reads a batch. -/
  | read
  /-- It offers a request, and `cpaCyLnModExp` returns `status`. -/
  | offload (status : CpaStatus)
  /-- It increments `request_count`. -/
  | count
  /-- The device answers a request, and the callback increments `response_count`. -/
  | callback (r : Request ι)
  /-- The devices are released and acquired again. -/
  | restart

variable {τ ι : Type}

/-- `request_count - response_count` -/
def State.pending (s : State τ ι) : UInt64 := s.requestCount - s.responseCount

/-- `max_pending - ((pending < max_pending) ? pending : max_pending)` -/
def State.available (s : State τ ι) : UInt64 :=
  maxPending - (if s.pending < maxPending then s.pending else maxPending)

/-- The loop over the batch goes on, or is over. -/
def afterOffload (runtime : Runtime.State τ ι) : Pc :=
  if runtime.processingList.count = 0 then .test else .offload

variable [DecidableEq τ] [DecidableEq ι]

/-- A device call for the next request of the batch, and what follows up to the increment. -/
def offload (s : State τ ι) (status : CpaStatus) : Section (State τ ι) := do
  let r ← load bufferSize s.runtime.processingList.request s.runtime.processed
  let runtime ← Runtime.step s.runtime .dispatch
  match r, status with
  | none, _ => .error (.undefined "null pointer")
  | some _, .retry => pure { s with runtime := runtime, pc := .exited }
  | some r, .success => pure { s with
      runtime := runtime, pc := .accepted, inDevice := r :: s.inDevice }
  | some _, _ => pure { s with runtime := runtime, pc := afterOffload runtime }

/-- One section of one thread. -/
def step (s : State τ ι) : Action τ ι → Section (State τ ι)
  | .other a => do
      let runtime ← Runtime.step s.runtime a.action
      pure { s with runtime := runtime }
  | .test running => do
      waitWhile (s.pc ≠ .test)
      pure { s with pc := if running then .compute else .exited }
  | .compute => do
      waitWhile (s.pc ≠ .compute)
      if s.available < restartThreshold then pure s
      else pure { s with pc := .read s.available.toUInt32 }
  | .read =>
      match s.pc with
      | .read maxRequests => do
          let runtime ← Runtime.step s.runtime (.read maxRequests.toNat)
          pure { s with runtime := runtime, pc := .offload }
      | _ => .error .blocked
  | .offload status => do
      waitWhile (s.pc ≠ .offload)
      offload s status
  | .count => do
      waitWhile (s.pc ≠ .accepted)
      pure { s with
        requestCount := s.requestCount + 1
        requests := s.requests + 1
        pc := afterOffload s.runtime }
  | .callback r => do
      waitWhile (r ∉ s.inDevice)
      pure { s with
        responseCount := s.responseCount + 1
        responses := s.responses + 1
        inDevice := s.inDevice.erase r }
  | .restart => do
      waitWhile (s.pc ≠ .exited)
      pure { s with runtime := Runtime.State.initial, pc := .test }

/-- The runtime with its counters: steps that come to their end. -/
def system (τ ι : Type) [DecidableEq τ] [DecidableEq ι] :
    TransitionSystem (State τ ι) (Action τ ι) where
  init s := s = State.initial
  step s a := (step s a).toOption

end Ipcl.HeQat.Throttle
