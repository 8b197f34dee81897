/-
Sessions on the outstanding buffers.

A thread acquires a buffer, calls `HE_QAT_bnModExp_MT` on it any number of times, and
releases it.  `release_bnModExp_buffer` goes through the slots once more, from where the
last release of this buffer has stopped: it waits for the request in each to be answered,
frees it and leaves NULL.  Having done so as often as it was told to, it gives the buffer
back.  Meanwhile the scheduler, the processing thread and the callbacks go on.

A call may also fail before it has a request to submit, for lack of memory or because a
pointer is NULL.  Then nothing is queued, and only its return value says so.

The slots of a buffer are written by the thread that holds it and by no other, so what a
release reads between two sections is what it would read within one.  Requests of the
other interface, which goes past the outstanding buffers, are not part of this.
-/
import Ipcl.HeQat.Pipeline
import Ipcl.HeQat.Requests

namespace Ipcl.HeQat

/-! ### `HE_QAT_bnModExp_MT` before the submission -/

/-- What a call finds: which of its arguments are there, and which of its allocations succeed.
`opData` is the pointer to the operands. -/
structure Resources where
  r : Bool
  b : Bool
  e : Bool
  m : Bool
  pBase : Bool
  pExponent : Bool
  pModulus : Bool
  request : Bool
  opData : Option Nat
  opResult : Bool
  deriving DecidableEq

/-- A check that ends the call with a status. -/
def require (c : Bool) (status : Status) : Except Status Unit :=
  if c then .ok () else .error status

/-- The request that is submitted, or the status the call returns without one. -/
def packRequest (a : Resources) : Except Status TaskRequest := do
  require a.r .invalidParam
  require a.b .invalidParam
  require a.e .invalidParam
  require a.m .invalidParam
  require a.pBase .fail
  require a.pExponent .fail
  require a.pModulus .fail
  require a.request .fail
  match a.opData with
  | none => .error .fail
  | some opData =>
      require a.opResult .fail
      pure (.packed .bnModExp opData)

/-- Nothing is missing. -/
def Resources.all : Resources := ⟨true, true, true, true, true, true, true, true, some 5, true⟩

example : packRequest { Resources.all with pModulus := false } = .error .fail := rfl

/-- `free`, on a pointer to a request. -/
def free {ρ : Type} [DecidableEq ρ] (task : ρ → Option TaskRequest) :
    Option ρ → Section (ρ → Option TaskRequest)
  | none => .ok task
  | some r =>
      if (task r).isSome then .ok (Function.update task r none)
      else .error (.undefined "double free")

/-- The variables of `release_bnModExp_buffer`, and what it has freed. -/
structure Walk (ρ : Type) where
  batchSize : Nat
  nextDataOut : Nat
  j : Nat
  task : Option ρ
  freed : List ρ

namespace Sessions

structure State (τ ι : Type) where
  runtime : Runtime.State τ ι
  /-- the requests in memory -/
  task : Request ι → Option TaskRequest
  /-- what the callbacks have copied to where `op_output` points -/
  output : Request ι → Option (List Nat)
  /-- what the device has answered -/
  answer : Request ι → Option (List Nat)
  freed : List (Request ι)
  /-- the calls of the session on a buffer, with the requests they have queued -/
  calls : Nat → List (Option (Request ι))
  /-- the release that is in progress on a buffer -/
  walk : Nat → Option (Walk (Request ι))

def State.initial {τ ι : Type} : State τ ι where
  runtime := Runtime.State.initial
  task _ := none
  output _ := none
  answer _ := none
  freed := []
  calls _ := []
  walk _ := none

/-- The requests the session on a buffer has queued. -/
def State.queued {τ ι : Type} (s : State τ ι) (bufferId : Nat) : List (Request ι) :=
  (s.calls bufferId).reduceOption

/-- The sections of the scheduler and of the processing thread. -/
inductive Background where
  | select
  | extract
  | submitList
  | read (maxRequests : Nat)
  | dispatch
  deriving DecidableEq

def Background.action {τ ι : Type} : Background → Runtime.Action τ ι
  | .select => .select
  | .extract => .extract
  | .submitList => .submitList
  | .read maxRequests => .read maxRequests
  | .dispatch => .dispatch

inductive Action (τ ι : Type) where
  /-- `acquire_bnModExp_buffer`; the thread's variable holds `bufferId` at the call. -/
  | acquire (t : τ) (bufferId : Nat)
  /-- `HE_QAT_bnModExp_MT`; a request would be `ref`. -/
  | call (t : τ) (bufferId : Nat) (ref : ι) (a : Resources)
  | background (a : Background)
  /-- The device has computed `out` for the request. -/
  | callback (r : Request ι) (out : List Nat)
  /-- The call of `release_bnModExp_buffer`. -/
  | release (t : τ) (bufferId batchSize : Nat)
  /-- The head of its loop: the slot is read. -/
  | look (t : τ) (bufferId : Nat)
  /-- The rest of a round: the request in the slot is waited for and freed. -/
  | finish (t : τ) (bufferId : Nat)
  /-- The end of the release: the buffer is given back. -/
  | giveBack (t : τ) (bufferId : Nat)

/-- The API thread that takes the action. -/
def Action.thread {τ ι : Type} : Action τ ι → Option τ
  | .acquire t _ => some t
  | .call t _ _ _ => some t
  | .background _ => none
  | .callback _ _ => none
  | .release t _ _ => some t
  | .look t _ => some t
  | .finish t _ => some t
  | .giveBack t _ => some t

variable {τ ι : Type} [DecidableEq τ] [DecidableEq ι]

/-- A state with another buffer in the place of one. -/
def State.withBuffer (s : State τ ι) (bufferId : Nat) (b : RequestBuffer (Request ι)) :
    State τ ι :=
  { s with runtime := { s.runtime with outstanding := { s.runtime.outstanding with
      buffer := Function.update s.runtime.outstanding.buffer bufferId b } } }

/-- The answer of the device goes through the callback of the request. -/
def callback (s : State τ ι) (r : Request ι) (out : List Nat) : Section (State τ ι) :=
  match s.task r with
  | none => .error (.undefined "use after free")
  | some request =>
      let request := request.answered
        { status := .success, pOpData := request.opData, out := out, bin2bn := none }
      .ok { s with
        task := Function.update s.task r (some request)
        output := Function.update s.output r (some request.opOutput)
        answer := Function.update s.answer r (some out) }

/-- The first lines of `release_bnModExp_buffer`. -/
def enter (s : State τ ι) (bufferId batchSize : Nat) : Section (State τ ι) := do
  let b ← load bufferCount s.runtime.outstanding.buffer bufferId
  let w := { batchSize := batchSize, nextDataOut := b.nextDataOut, j := 0, task := none,
             freed := [] }
  pure { s with walk := Function.update s.walk bufferId (some w) }

/-- A slot that holds NULL leaves the loop where it is. -/
def look (s : State τ ι) (bufferId : Nat) (w : Walk (Request ι)) : Section (State τ ι) := do
  waitWhile (w.task.isSome ∨ w.j ≥ w.batchSize)
  let b ← load bufferCount s.runtime.outstanding.buffer bufferId
  let task ← load bufferSize b.data w.nextDataOut
  pure { s with walk := Function.update s.walk bufferId (some { w with task := task }) }

/-- The wait for one request and what follows it.  What `op_data` and `op_result` point to is
freed as well; nothing reads it again. -/
def finish (s : State τ ι) (bufferId : Nat) (w : Walk (Request ι)) : Section (State τ ι) :=
  match w.task with
  | none => .error .blocked
  | some r =>
      match s.task r with
      | none => .error (.undefined "use after free")
      | some request => do
          waitWhile (¬ request.WaitOver)
          let b ← load bufferCount s.runtime.outstanding.buffer bufferId
          let slot ← load bufferSize b.data w.nextDataOut
          let task ← free s.task slot
          let data ← store bufferSize b.data w.nextDataOut none
          pure { s.withBuffer bufferId { b with data := data } with
            task := task
            freed := s.freed ++ slot.toList
            walk := Function.update s.walk bufferId (some { w with
              nextDataOut := (w.nextDataOut + 1) % bufferSize
              j := w.j + 1
              task := none
              freed := w.freed ++ slot.toList }) }

/-- The end of the release.  The session is over with it. -/
def giveBack (s : State τ ι) (t : τ) (bufferId : Nat) (w : Walk (Request ι)) :
    Section (State τ ι) := do
  waitWhile (w.j < w.batchSize)
  let b ← load bufferCount s.runtime.outstanding.buffer bufferId
  let s' := s.withBuffer bufferId { b with nextDataOut := w.nextDataOut }
  let runtime ← Runtime.step s'.runtime (.release t bufferId)
  pure { s' with
    runtime := runtime
    calls := Function.update s.calls bufferId []
    walk := Function.update s.walk bufferId none }

/-- A step of the release in progress on a buffer, by the thread that holds it. -/
def releasing (s : State τ ι) (t : τ) (bufferId : Nat)
    (f : Walk (Request ι) → Section (State τ ι)) : Section (State τ ι) := do
  waitWhile ((t, bufferId) ∉ s.runtime.held)
  match s.walk bufferId with
  | none => .error .blocked
  | some w => f w

/-- One section of one thread. -/
def step (s : State τ ι) : Action τ ι → Section (State τ ι)
  | .acquire t bufferId => do
      let runtime ← Runtime.step s.runtime (.acquire t bufferId)
      pure { s with runtime := runtime }
  | .call t bufferId ref a => do
      waitWhile ((t, bufferId) ∉ s.runtime.held ∨ (s.walk bufferId).isSome)
      match packRequest a with
      | .error _ => pure { s with
          calls := Function.update s.calls bufferId (s.calls bufferId ++ [none]) }
      | .ok request => do
          let runtime ← Runtime.step s.runtime (.submit t bufferId ref)
          let r : Request ι := ⟨some bufferId, ref⟩
          pure { s with
            runtime := runtime
            task := Function.update s.task r (some request)
            calls := Function.update s.calls bufferId (s.calls bufferId ++ [some r]) }
  | .background a => do
      let runtime ← Runtime.step s.runtime a.action
      pure { s with runtime := runtime }
  | .callback r out => do
      waitWhile (r ∉ s.runtime.dispatched ∨ (s.answer r).isSome)
      callback s r out
  | .release t bufferId batchSize => do
      waitWhile ((t, bufferId) ∉ s.runtime.held ∨ (s.walk bufferId).isSome)
      enter s bufferId batchSize
  | .look t bufferId => releasing s t bufferId (look s bufferId)
  | .finish t bufferId => releasing s t bufferId (finish s bufferId)
  | .giveBack t bufferId => releasing s t bufferId (giveBack s t bufferId)

/-- The runtime with its sessions: steps that come to their end. -/
def system (τ ι : Type) [DecidableEq τ] [DecidableEq ι] :
    TransitionSystem (State τ ι) (Action τ ι) where
  init s := s = State.initial
  step s a := (step s a).toOption

/-- A release is told of as many requests as calls were made. -/
def Planned (s : State τ ι) : Action τ ι → Prop
  | .release _ bufferId batchSize => batchSize = (s.calls bufferId).length
  | _ => True

instance (s : State τ ι) (a : Action τ ι) : Decidable (Planned s a) := by
  unfold Planned
  split <;> infer_instance

end Sessions

end Ipcl.HeQat
