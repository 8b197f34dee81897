/-
Offering requests to the device.

The loop of `start_instances` and that of `start_perform_op` treat the requests of a batch
one by one: offer the request until the device gives an answer other than
`CPA_STATUS_RETRY`, or until the retries run out, and then book what the answer was.  The
copies of this code differ in two places.  At a busy reply `start_instances` ends its
thread, where `start_perform_op` sleeps before it tries again; and `start_instances` has
several instances to offer requests to, which take turns.

The device is a sequence of replies, one for each call.  A batch is the list that
`read_request_list` has filled.  Built with `HE_QAT_SYNC_MODE` the loops also wait for the
answer to each accepted request; `completes` says for which requests this wait is a
success, and without the mode it is so for all.
-/
import Ipcl.HeQat.Requests

namespace Ipcl.HeQat.Dispatch

/-- `HE_QAT_MAX_RETRY` -/
def maxRetry : Nat := 100

/-- A call of `cpaCyLnModExp`. -/
structure Offer (ι : Type) where
  request : ι
  inst : Nat
  reply : CpaStatus
  deriving DecidableEq, Repr

structure State (ι : Type) where
  tasks : ι → TaskRequest
  /-- the variable `status` of the loop -/
  status : CpaStatus
  nextInstance : Nat
  requestCount : UInt64
  /-- the calls of the device so far -/
  offers : List (Offer ι)
  /-- the thread has ended itself -/
  exited : Bool

/-- In what the dispatchers differ. -/
structure Dispatcher where
  /-- A busy reply ends the thread. -/
  halts : Bool
  /-- The instance after the one that has accepted a request. -/
  next : Nat → Nat

/-- What the surroundings do. -/
structure Surroundings (ι : Type) where
  /-- the reply to a call, by the number of calls before -/
  reply : Nat → CpaStatus
  completes : ι → Bool

variable {ι : Type} [DecidableEq ι]

/-- The `switch` on the type of the operation, with the new value of `retry`. -/
def attempt (env : Surroundings ι) (r : ι) (retry : Nat) (s : State ι) : State ι × Nat :=
  match (s.tasks r).opType with
  | .modExp =>
      let status := env.reply s.offers.length
      ({ s with status := status, offers := s.offers ++ [⟨r, s.nextInstance, status⟩] }, retry + 1)
  | .none => (s, maxRetry)

omit [DecidableEq ι] in
theorem retry_lt_attempt (env : Surroundings ι) (r : ι) {retry : Nat} (s : State ι)
    (hlt : (attempt env r retry s).2 < maxRetry) : retry < (attempt env r retry s).2 := by
  unfold attempt at hlt ⊢
  split <;> simp_all

/-- The `do` loop. -/
def offer (d : Dispatcher) (env : Surroundings ι) (r : ι) (retry : Nat) (s : State ι) : State ι :=
  let a := attempt env r retry s
  if a.1.status = .retry then
    if d.halts then { a.1 with exited := true }
    else if a.2 < maxRetry then offer d env r a.2 a.1
    else a.1
  else a.1
termination_by maxRetry - retry
decreasing_by
  have hlt := retry_lt_attempt env r s ‹_›
  exact Nat.sub_lt_sub_left (hlt.trans ‹_›) hlt

/-- What follows the loop. -/
def book (d : Dispatcher) (env : Surroundings ι) (r : ι) (s : State ι) : State ι :=
  if s.status = .success then
    let s := { s with
      requestCount := s.requestCount + 1
      nextInstance := d.next s.nextInstance }
    if env.completes r then s
    else { s with tasks := Function.update s.tasks r (Offload.failed (s.tasks r)) }
  else { s with tasks := Function.update s.tasks r (Offload.failed (s.tasks r)) }

/-- One request of a batch, as long as the thread is there. -/
def dispatch (d : Dispatcher) (env : Surroundings ι) (s : State ι) (r : ι) : State ι :=
  if s.exited then s
  else
    let s := offer d env r 0 s
    if s.exited then s else book d env r s

/-- One batch. -/
def dispatchBatch (d : Dispatcher) (env : Surroundings ι) (s : State ι) (batch : List ι) :
    State ι :=
  batch.foldl (dispatch d env) s

/-- The batches the loop reads, one after the other. -/
def dispatchAll (d : Dispatcher) (env : Surroundings ι) (s : State ι) (batches : List (List ι)) :
    State ι :=
  batches.foldl (dispatchBatch d env) s

/-- `start_instances`, with `instance_count` instances (`acquire_qat_devices` looks up eight, so
there always is one) -/
def startInstances (instanceCount : Nat) : Dispatcher where
  halts := true
  next i := (i + 1) % instanceCount

/-- `start_perform_op` -/
def startPerformOp : Dispatcher where
  halts := false
  next i := i

end Ipcl.HeQat.Dispatch
