/-
The runtime between two initialisations.

Any number of API threads take and give back outstanding buffers and submit requests,
to a buffer they hold or directly to the internal ring.  The scheduler pulls from the
outstanding buffers and submits what it pulled to the internal ring, and the processing
thread reads from there and hands the requests to the device one by one.

One action is one section, and the threads take turns in any order.  An action that is
not enabled, because its thread is elsewhere or because its wait condition holds, is
`blocked`; what else can stop a step, a failed assertion or an access outside an array,
would be a defect.

Besides what the code stores, the state records which thread holds which buffer, what
has been submitted and what has been dispatched.  A request is a fresh allocation, so
none is submitted twice.
-/
import Ipcl.HeQat.BnOps
import Ipcl.HeQat.Ctrl
import Ipcl.Lib.Transition

namespace Ipcl.HeQat

/-- A request, with the outstanding buffer it is submitted to, if any. -/
structure Request (ι : Type) where
  via : Option Nat
  ref : ι
  deriving DecidableEq

/-- Where the scheduler is in its loop. -/
inductive SchedulerAt where
  /-- before the first section of the pull -/
  | select
  /-- between its sections, with the buffer chosen -/
  | extract (index : Nat)
  /-- before the submission of its list -/
  | submit
  deriving DecidableEq

namespace Runtime

structure State (τ ι : Type) where
  outstanding : OutstandingBuffer (Request ι)
  heQatBuffer : RequestBuffer (Request ι)
  scheduler : SchedulerAt
  schedulerList : TaskRequestList (Request ι)
  processingList : TaskRequestList (Request ι)
  /-- the index of the loop over the processing thread's list -/
  processed : Nat
  held : List (τ × Nat)
  submitted : List (Request ι)
  dispatched : List (Request ι)

/-- After the initialisation. -/
def State.initial {τ ι : Type} : State τ ι where
  outstanding := OutstandingBuffer.initial
  heQatBuffer := RequestBuffer.initial
  scheduler := .select
  schedulerList := TaskRequestList.empty
  processingList := TaskRequestList.empty
  processed := 0
  held := []
  submitted := []
  dispatched := []

inductive Action (τ ι : Type) where
  /-- A thread acquires a buffer; its variable holds `bufferId` at the call. -/
  | acquire (t : τ) (bufferId : Nat)
  /-- A thread gives back a buffer it holds. -/
  | release (t : τ) (bufferId : Nat)
  /-- A thread submits a request to a buffer it holds. -/
  | submit (t : τ) (bufferId : Nat) (ref : ι)
  /-- A thread submits a request to the internal ring. -/
  | submitDirect (ref : ι)
  /-- The first section of `pull_outstanding_requests`. -/
  | select
  /-- Its second section. -/
  | extract
  /-- `submit_request_list` -/
  | submitList
  /-- `read_request_list` -/
  | read (maxRequests : Nat)
  /-- One round of the loop that offloads the requests read. -/
  | dispatch

variable {τ ι : Type} [DecidableEq τ] [DecidableEq ι]

/-- Without a buffer that is ready the second section is left out. -/
def afterSelect : Option Nat → SchedulerAt
  | some index => .extract index
  | none => .submit

/-- `submit_request` to an outstanding buffer. -/
def submitTo (s : State τ ι) (bufferId : Nat) (r : Request ι) : Section (State τ ι) := do
  let b ← load bufferCount s.outstanding.buffer bufferId
  let b' ← submitRequest b r
  pure { s with
    outstanding := { s.outstanding with
      buffer := Function.update s.outstanding.buffer bufferId b' }
    submitted := s.submitted ++ [r] }

/-- The second section of the pull, on buffer `index`. -/
def extractFrom (s : State τ ι) (index : Nat) : Section (State τ ι) := do
  let b ← load bufferCount s.outstanding.buffer index
  let (l, b') ← pullExtract s.schedulerList b bufferSize
  pure { s with
    outstanding := { s.outstanding with
      buffer := Function.update s.outstanding.buffer index b' }
    schedulerList := l
    scheduler := .submit }

/-- One round of the offloading loop. -/
def dispatchNext (s : State τ ι) : Section (State τ ι) := do
  let r ← load bufferSize s.processingList.request s.processed
  match r with
  | none => .error (.undefined "null pointer")
  | some r =>
      let request ← store bufferSize s.processingList.request s.processed none
      if s.processed + 1 = s.processingList.count then
        pure { s with
          processingList := { request := request, count := 0 }
          processed := 0
          dispatched := s.dispatched ++ [r] }
      else
        pure { s with
          processingList := { s.processingList with request := request }
          processed := s.processed + 1
          dispatched := s.dispatched ++ [r] }

/-- One section of one thread. -/
def step (s : State τ ι) : Action τ ι → Section (State τ ι)
  | .acquire t bufferId => do
      let (id, o) ← acquireBuffer s.outstanding bufferId
      pure { s with outstanding := o, held := (t, id) :: s.held }
  | .release t bufferId => do
      waitWhile ((t, bufferId) ∉ s.held)
      let o ← releaseBuffer s.outstanding bufferId
      pure { s with outstanding := o, held := s.held.erase (t, bufferId) }
  | .submit t bufferId ref => do
      waitWhile ((t, bufferId) ∉ s.held ∨ ⟨some bufferId, ref⟩ ∈ s.submitted)
      submitTo s bufferId ⟨some bufferId, ref⟩
  | .submitDirect ref => do
      waitWhile (⟨none, ref⟩ ∈ s.submitted)
      let b ← submitRequest s.heQatBuffer ⟨none, ref⟩
      pure { s with heQatBuffer := b, submitted := s.submitted ++ [⟨none, ref⟩] }
  | .select => do
      waitWhile (s.scheduler ≠ .select)
      let index ← pullSelect s.outstanding
      pure { s with
        schedulerList := { s.schedulerList with count := 0 }
        scheduler := afterSelect index }
  | .extract =>
      match s.scheduler with
      | .extract index => extractFrom s index
      | _ => .error .blocked
  | .submitList => do
      waitWhile (s.scheduler ≠ .submit)
      let (b, l) ← submitRequestList s.heQatBuffer s.schedulerList
      pure { s with heQatBuffer := b, schedulerList := l, scheduler := .select }
  | .read maxRequests => do
      waitWhile (s.processingList.count ≠ 0)
      let (l, b) ← readRequestList s.processingList s.heQatBuffer maxRequests
      pure { s with processingList := l, heQatBuffer := b, processed := 0 }
  | .dispatch => do
      waitWhile (s.processed ≥ s.processingList.count)
      dispatchNext s

/-- Whether a thread holds a buffer. -/
instance decidableHeld (s : State τ ι) (t : τ) (bufferId : Nat) :
    Decidable ((t, bufferId) ∈ s.held) := inferInstance

/-- Whether a request is among others. -/
instance decidableAmong (r : Request ι) (rs : List (Request ι)) : Decidable (r ∈ rs) :=
  inferInstance

/-- The runtime: steps that come to their end. -/
def system (τ ι : Type) [DecidableEq τ] [DecidableEq ι] :
    TransitionSystem (State τ ι) (Action τ ι) where
  init s := s = State.initial
  step s a := (step s a).toOption

end Runtime

/-! ### Where the requests are -/

/-- The requests in the unread slots of a ring, in the order they will be read. -/
def RequestBuffer.unread {ρ : Type} (b : RequestBuffer ρ) : List ρ :=
  (List.range b.count).filterMap fun i => b.data ((b.nextDataSlot + i) % bufferSize)

/-- The requests of a list from place `i` on. -/
def TaskRequestList.from {ρ : Type} (l : TaskRequestList ρ) (i : Nat) : List ρ :=
  (List.range (l.count - i)).filterMap fun j => l.request (i + j)

namespace Runtime

variable {τ ι : Type}

/-- What has left the outstanding buffers, in the order it was or will be dispatched. -/
def State.ahead (s : State τ ι) : List (Request ι) :=
  s.dispatched ++ s.processingList.from s.processed ++ s.heQatBuffer.unread
    ++ s.schedulerList.from 0

/-- What is still in the outstanding buffers. -/
def State.outstandingRequests (s : State τ ι) : List (Request ι) :=
  (List.range bufferCount).flatMap fun i => (s.outstanding.buffer i).unread

/-- The requests submitted to one outstanding buffer. -/
def viaBuffer (i : Nat) (l : List (Request ι)) : List (Request ι) :=
  l.filter fun r => r.via = some i

end Runtime

end Ipcl.HeQat
