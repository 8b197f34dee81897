/-
Which condition variables the threads of the runtime sleep on.

The sections are those of the sessions on the outstanding buffers, of the scheduler, of the
processing thread and of the callbacks, and the direct submissions of the other interface.
`waits` says where a section goes to sleep, and `signals` which variable it signals before
it gives the mutex back; both are read off the code next to `pthread_cond_wait` and
`pthread_cond_signal`.  A list without requests is not submitted: `submit_request_list`
returns before it takes the mutex, and signals nothing.

The processing thread reads only when there is room for `restart_threshold` requests, and it
does not look at the ring before.  How much room there is depends on what the device has
accepted and not answered.  The monitor leaves that open, so what is proved of it does not
depend on the device.  `Paced` counts the room as `start_instances` does, and lets the
processing thread end itself on a retry; where threads are to get somewhere, it is kept to.
-/
import Ipcl.HeQat.Sessions
import Ipcl.HeQat.Throttle
import Ipcl.Lib.Monitor

namespace Ipcl.HeQat.Wakeups

/-- The condition variables.  `none` stands for the internal ring. -/
inductive CondVar (ι : Type) where
  | anyFreeBuffer
  | anyReadyBuffer
  | anyFreeSlot (ring : Option Nat)
  | anyMoreData (ring : Option Nat)
  /-- of the request -/
  | ready (r : Request ι)
  deriving DecidableEq

inductive Thread (τ ι : Type) where
  | api (t : τ)
  /-- the one that submits this request to the internal ring -/
  | direct (ref : ι)
  | scheduler
  | processing
  /-- the one that answers this request -/
  | device (r : Request ι)
  deriving DecidableEq

deriving instance DecidableEq for Sessions.Action

/-- A call whose section a thread comes to. -/
inductive Call (τ ι : Type) where
  | session (a : Sessions.Action τ ι)
  /-- `submit_request_list` on a list without requests -/
  | leave
  /-- `HE_QAT_bnModExp` -/
  | direct (ref : ι) (opData : Nat)
  deriving DecidableEq

def Call.thread {τ ι : Type} : Call τ ι → Thread τ ι
  | .session (.acquire t _) => .api t
  | .session (.call t _ _ _) => .api t
  | .session (.background .select) => .scheduler
  | .session (.background .extract) => .scheduler
  | .session (.background .submitList) => .scheduler
  | .session (.background (.read _)) => .processing
  | .session (.background .dispatch) => .processing
  | .session (.callback r _) => .device r
  | .session (.release t _ _) => .api t
  | .session (.look t _) => .api t
  | .session (.finish t _) => .api t
  | .session (.giveBack t _) => .api t
  | .leave => .scheduler
  | .direct ref _ => .direct ref

variable {τ ι : Type} [DecidableEq τ] [DecidableEq ι]

/-- When the call is made. -/
def Admits (s : Sessions.State τ ι) : Call τ ι → Prop
  | .session (.background .submitList) => s.runtime.schedulerList.count ≠ 0
  | .session (.background (.read maxRequests)) => Throttle.restartThreshold.toNat ≤ maxRequests
  | .session a => Sessions.Planned s a
  | .leave => s.runtime.schedulerList.count = 0
  | .direct _ _ => True

instance (s : Sessions.State τ ι) (a : Call τ ι) : Decidable (Admits s a) := by
  unfold Admits
  split <;> infer_instance

/-- The section of a call. -/
def perform (s : Sessions.State τ ι) : Call τ ι → Section (Sessions.State τ ι)
  | .session a => Sessions.step s a
  | .leave => Sessions.step s (.background .submitList)
  | .direct ref opData => do
      let runtime ← Runtime.step s.runtime (.submitDirect ref)
      let r : Request ι := ⟨none, ref⟩
      pure { s with
        runtime := runtime
        task := Function.update s.task r (some (.packed .bnModExp opData)) }

def step (s : Sessions.State τ ι) (a : Call τ ι) : Section (Sessions.State τ ι) := do
  waitWhile (¬ Admits s a)
  perform s a

/-- The sections that come to their end. -/
def system (τ ι : Type) [DecidableEq τ] [DecidableEq ι] :
    TransitionSystem (Sessions.State τ ι) (Call τ ι) where
  init s := s = Sessions.State.initial
  step s a := (step s a).toOption

/-- The request a release is at, when it is not ready. -/
def awaited (s : Sessions.State τ ι) (bufferId : Nat) : Option (Request ι) := do
  let w ← s.walk bufferId
  let r ← w.task
  let request ← s.task r
  if request.WaitOver then none else some r

/-- The conditions of the loops around `pthread_cond_wait`, where the thread is at the loop. -/
def waits (s : Sessions.State τ ι) : Call τ ι → Option (CondVar ι)
  | .session (.acquire _ _) =>
      if s.runtime.outstanding.busyCount ≥ bufferCount then some .anyFreeBuffer else none
  | .session (.call t bufferId ref a) =>
      if ((t, bufferId) ∈ s.runtime.held ∧ (s.walk bufferId).isNone) ∧ (packRequest a).isOk ∧
          ⟨some bufferId, ref⟩ ∉ s.runtime.submitted ∧
          (s.runtime.outstanding.buffer bufferId).count ≥ bufferSize then
        some (.anyFreeSlot (some bufferId))
      else none
  | .session (.background .select) =>
      if s.runtime.scheduler = .select ∧ s.runtime.outstanding.busyCount ≤ 0 then
        some .anyReadyBuffer
      else none
  | .session (.background .extract) =>
      match s.runtime.scheduler with
      | .extract index =>
          if (s.runtime.outstanding.buffer index).count ≤ 0 then
            some (.anyMoreData (some index))
          else none
      | _ => none
  | .session (.background .submitList) =>
      if s.runtime.scheduler = .submit ∧ s.runtime.schedulerList.count ≠ 0 ∧
          (s.runtime.heQatBuffer.count ≥ bufferSize ∨
            bufferSize - s.runtime.heQatBuffer.count < s.runtime.schedulerList.count) then
        some (.anyFreeSlot none)
      else none
  | .session (.background (.read maxRequests)) =>
      if Throttle.restartThreshold.toNat ≤ maxRequests ∧ s.runtime.processingList.count = 0 ∧
          s.runtime.heQatBuffer.count ≤ 0 then
        some (.anyMoreData none)
      else none
  | .session (.finish t bufferId) =>
      if (t, bufferId) ∈ s.runtime.held then (awaited s bufferId).map .ready else none
  | .direct ref _ =>
      if ⟨none, ref⟩ ∉ s.runtime.submitted ∧ s.runtime.heQatBuffer.count ≥ bufferSize then
        some (.anyFreeSlot none)
      else none
  | _ => none

/-- `pthread_cond_signal`, before the mutex is given back. -/
def signals (s : Sessions.State τ ι) : Call τ ι → Option (CondVar ι)
  | .session (.acquire _ _) => some .anyReadyBuffer
  | .session (.call _ bufferId _ a) =>
      if (packRequest a).isOk then some (.anyMoreData (some bufferId)) else none
  | .session (.background .extract) =>
      match s.runtime.scheduler with
      | .extract index => some (.anyFreeSlot (some index))
      | _ => none
  | .session (.background .submitList) => some (.anyMoreData none)
  | .session (.background (.read _)) => some (.anyFreeSlot none)
  | .session (.callback r _) => some (.ready r)
  | .session (.giveBack _ _) => some .anyFreeBuffer
  | .direct _ _ => some (.anyMoreData none)
  | _ => none

/-- The threads of the runtime at their condition variables. -/
def monitor (τ ι : Type) [DecidableEq τ] [DecidableEq ι] :
    Monitor (Sessions.State τ ι) (Call τ ι) (CondVar ι) (Thread τ ι) where
  sys := system τ ι
  thread := Call.thread
  waits := waits
  signals := signals

abbrev State (τ ι : Type) := Monitor.State (Sessions.State τ ι) (Call τ ι) (CondVar ι)

/-- Nobody is in a call. -/
def State.initial : State τ ι where
  base := Sessions.State.initial
  inside := []
  asleep := []

/-! ### What the device takes -/

section
variable (status : Request ι → CpaStatus) (s : Sessions.State τ ι)

/-- `pending` at the head of the loop of `start_instances`, where every request that has been
offered is counted: those that `cpaCyLnModExp` has accepted and the device has not answered.  For
the request `r` it returns `status r`. -/
def pending : Nat := s.runtime.dispatched.countP fun r => status r = .success ∧ s.answer r = none

/-- `available` -/
def available : Nat := Throttle.maxPending.toNat - min (pending status s) Throttle.maxPending.toNat

/-- The device has asked for a retry, and `pthread_exit` has ended the processing thread. -/
def Exited : Prop := ∃ r ∈ s.runtime.dispatched, status r = .retry

/-- The calls that the counters and the device let happen.  Between its look at the counters and
its read the processing thread may be overtaken by answers. -/
def Paced : Call τ ι → Prop
  | .session (.background (.read maxRequests)) =>
      ¬ Exited status s ∧ maxRequests ≤ available status s
  | .session (.background .dispatch) => ¬ Exited status s
  | .session (.callback r _) => status r = .success
  | _ => True

instance : Decidable (Exited status s) := by
  unfold Exited
  infer_instance

instance (a : Call τ ι) : Decidable (Paced status s a) := by
  unfold Paced
  split <;> infer_instance

end

/-- The sections, in step with the device. -/
abbrev pacedSystem (status : Request ι → CpaStatus) :
    TransitionSystem (Sessions.State τ ι) (Call τ ι) :=
  (system τ ι).restrict (Paced status)

/-- The threads, in step with the device. -/
abbrev pacedMonitor (status : Request ι → CpaStatus) :
    Monitor (Sessions.State τ ι) (Call τ ι) (CondVar ι) (Thread τ ι) :=
  (monitor τ ι).restrict (Paced status)

end Ipcl.HeQat.Wakeups
