/-
The barrier of the single-threaded interface.

`HE_QAT_bnModExp` submits a request straight to the internal ring, and
`getBnModExpRequest` waits for as many as it is told.  It goes through the slots of the
ring from an index of its own, which it keeps from one call to the next: nothing but the
barrier moves it.  The ring is also written by the scheduler, for the sessions on the
outstanding buffers, and is emptied when the devices are acquired anew.

The calls come from one history: batches of submissions, no longer than the ring, each
followed by a barrier that is told their number; between the batches any sessions, which
are over before the next batch begins, and new acquisitions.  The threads of the runtime
and the callbacks go on all the time.  What belongs to an earlier acquisition is out of
reach of the new rings, so the sessions start from nothing.

The body of the loop is run before its condition is tested, and `continue` goes to that
test.
-/
import Ipcl.HeQat.Sessions

namespace Ipcl.HeQat.Barrier

/-- The variables of `getBnModExpRequest`, and what it has freed. -/
structure Wait (ρ : Type) where
  batchSize : Nat
  j : Nat
  task : Option ρ
  freed : List ρ
  deriving DecidableEq

structure State (τ ι : Type) where
  sessions : Sessions.State τ ι
  /-- the static `block_at_index` -/
  blockAtIndex : Nat
  /-- the requests submitted since the last barrier -/
  batch : List (Request ι)
  /-- the barrier in progress -/
  wait : Option (Wait (Request ι))

def State.initial {τ ι : Type} : State τ ι where
  sessions := Sessions.State.initial
  blockAtIndex := 0
  batch := []
  wait := none

inductive Action (τ ι : Type) where
  /-- A section of a session, of a thread of the runtime or of a callback. -/
  | session (a : Sessions.Action τ ι)
  /-- `HE_QAT_bnModExp`, with its request and the pointer to the operands -/
  | submit (ref : ι) (opData : Nat)
  /-- The call of `getBnModExpRequest`. -/
  | wait
  /-- The head of the loop: the slot is read. -/
  | look
  /-- The rest of a round: the request in the slot is waited for and freed. -/
  | finish
  /-- The loop is over. -/
  | returns
  /-- The devices are released and acquired again. -/
  | reacquire

variable {τ ι : Type}

def State.ring (s : State τ ι) : RequestBuffer (Request ι) := s.sessions.runtime.heQatBuffer

/-- A batch has been begun. -/
def State.Busy (s : State τ ι) : Prop := s.batch ≠ [] ∨ s.wait.isSome

instance [DecidableEq ι] (s : State τ ι) : Decidable s.Busy := by
  unfold State.Busy
  infer_instance

variable [DecidableEq τ] [DecidableEq ι]

/-- A request of the interface has been packed and is submitted. -/
def submit (s : State τ ι) (ref : ι) (opData : Nat) : Section (State τ ι) := do
  let runtime ← Runtime.step s.sessions.runtime (.submitDirect ref)
  let r : Request ι := ⟨none, ref⟩
  pure { s with
    sessions := { s.sessions with
      runtime := runtime
      task := Function.update s.sessions.task r (some (.packed .bnModExp opData)) }
    batch := s.batch ++ [r] }

omit [DecidableEq τ] [DecidableEq ι] in
/-- The head of the loop. -/
def look (s : State τ ι) (w : Wait (Request ι)) : Section (State τ ι) := do
  waitWhile (w.task.isSome ∨ (0 < w.j ∧ w.j ≥ w.batchSize))
  let task ← load bufferSize s.ring.data s.blockAtIndex
  match task with
  | none => pure { s with wait := some { w with j := w.j + 1 } }
  | some r => pure { s with wait := some { w with task := some r } }

omit [DecidableEq τ] in
/-- The rest of a round. -/
def finish (s : State τ ι) (w : Wait (Request ι)) : Section (State τ ι) :=
  match w.task with
  | none => .error .blocked
  | some r =>
      match s.sessions.task r with
      | none => .error (.undefined "use after free")
      | some request => do
          waitWhile (¬ request.WaitOver)
          let slot ← load bufferSize s.ring.data s.blockAtIndex
          let task ← free s.sessions.task slot
          let data ← store bufferSize s.ring.data s.blockAtIndex none
          pure { s with
            sessions := { s.sessions with
              runtime := { s.sessions.runtime with heQatBuffer := { s.ring with data := data } }
              task := task
              freed := s.sessions.freed ++ slot.toList }
            blockAtIndex := (s.blockAtIndex + 1) % bufferSize
            wait := some { w with j := w.j + 1, task := none, freed := w.freed ++ slot.toList } }

omit [DecidableEq τ] [DecidableEq ι] in
/-- A step of the barrier in progress. -/
def waiting (s : State τ ι) (f : Wait (Request ι) → Section (State τ ι)) :
    Section (State τ ι) :=
  match s.wait with
  | none => .error .blocked
  | some w => f w

/-- One section of one thread. -/
def step (s : State τ ι) : Action τ ι → Section (State τ ι)
  | .session a => do
      waitWhile (a.thread.isSome ∧ s.Busy)
      waitWhile (¬ Sessions.Planned s.sessions a)
      let sessions ← Sessions.step s.sessions a
      pure { s with sessions := sessions }
  | .submit ref opData => do
      waitWhile (s.wait.isSome ∨ s.sessions.runtime.held ≠ [] ∨ s.batch.length ≥ bufferSize)
      submit s ref opData
  | .wait => do
      waitWhile (s.wait.isSome ∨ s.batch = [])
      pure { s with
        wait := some { batchSize := s.batch.length, j := 0, task := none, freed := [] } }
  | .look => waiting s (look s)
  | .finish => waiting s (finish s)
  | .returns => waiting s fun w => do
      waitWhile (w.task.isSome ∨ w.j = 0 ∨ w.j < w.batchSize)
      pure { s with batch := [], wait := none }
  | .reacquire => do
      waitWhile (s.Busy ∨ s.sessions.runtime.held ≠ [])
      pure { s with sessions := Sessions.State.initial }

/-- The interface in its runtime: steps that come to their end. -/
def system (τ ι : Type) [DecidableEq τ] [DecidableEq ι] :
    TransitionSystem (State τ ι) (Action τ ι) where
  init s := s = State.initial
  step s a := (step s a).toOption

/-- The barrier begins where its batch does, or the batch fills the ring. -/
def InStep (s : State τ ι) : Action τ ι → Prop
  | .wait => (s.blockAtIndex + s.batch.length) % bufferSize = s.ring.nextFreeSlot ∨
      s.batch.length = bufferSize
  | _ => True

end Ipcl.HeQat.Barrier
