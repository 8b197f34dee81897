/-
`heQatBnModExp_MT` on the runtime.

For every slice the function acquires a buffer, calls `HE_QAT_bnModExp_MT` for one element
after the other and releases the buffer; then it reads the results of the slice.  What a
call returns is looked at for a message only, so a slice goes on after a call that has
failed, and the release is told the number of elements, not of requests.

Here one thread does this while other threads have their sessions.  Which calls find what
they need is not up to the function, so it is a pattern that is given: `ok e` says whether
the call for element `e` queues a request.  Which elements a slice has is computed where
the function itself is modelled, and so are the conversions before and after.
-/
import Ipcl.HeQat.Sessions
import Ipcl.ModExp.Batch

namespace Ipcl.HeQat

namespace Slices

open Sessions (Action)

/-- Where the thread is in the loop over the slices. -/
inductive At where
  /-- before the acquisition -/
  | acquire
  /-- in the loop over the elements, before the one at place `i` -/
  | call (bufferId i : Nat)
  /-- in `release_bnModExp_buffer` -/
  | release (bufferId : Nat)
  deriving DecidableEq

/-- What is read back for an element.  Where no result has been stored, the memory still is as
the function has cleared it. -/
structure Value (ι : Type) where
  element : Nat
  request : Option (Request ι)
  octets : Option (List Nat)

structure State (τ ι : Type) where
  sessions : Sessions.State τ ι
  place : At
  /-- the slices that are not done, the one in progress first -/
  slices : List (List Nat)
  remainder : List (Value ι)

def State.initial {τ ι : Type} (slices : List (List Nat)) : State τ ι where
  sessions := Sessions.State.initial
  place := .acquire
  slices := slices
  remainder := []

/-- The buffer acquired last. -/
def acquired {τ ι : Type} (s : Sessions.State τ ι) : Nat := (s.runtime.held.head?.map (·.2)).getD 0

/-- The results of a slice, after its release. -/
def readBack {τ ι : Type} (s : Sessions.State τ ι) (bufferId : Nat) (slice : List Nat) :
    List (Value ι) :=
  (slice.zip (s.calls bufferId)).map fun x => ⟨x.1, x.2, x.2.bind s.output⟩

variable {τ ι : Type}

/-- How far the function is after an action of its thread; `none` when the function would not
take it there.  `s'` is the state of the sessions after the action. -/
def follow (ok : Nat → Bool) (s : State τ ι) (s' : Sessions.State τ ι) (a : Action τ ι) :
    Option (State τ ι) :=
  match s.place, s.slices, a with
  | .acquire, _ :: _, .acquire _ bufferId =>
      if bufferId = 0 then some { s with sessions := s', place := .call (acquired s') 0 }
      else none
  | .call id i, slice :: _, .call _ bufferId _ resources =>
      if bufferId = id ∧ slice[i]?.map ok = some (packRequest resources).isOk then
        some { s with sessions := s', place := .call id (i + 1) }
      else none
  | .call id i, slice :: _, .release _ bufferId batchSize =>
      if bufferId = id ∧ i = slice.length ∧ batchSize = slice.length then
        some { s with sessions := s', place := .release id }
      else none
  | .release id, _ :: _, .look _ bufferId =>
      if bufferId = id then some { s with sessions := s' } else none
  | .release id, _ :: _, .finish _ bufferId =>
      if bufferId = id then some { s with sessions := s' } else none
  | .release id, slice :: rest, .giveBack _ bufferId =>
      if bufferId = id then some {
        sessions := s'
        place := .acquire
        slices := rest
        remainder := s.remainder ++ readBack s.sessions id slice }
      else none
  | _, _, _ => none

variable [DecidableEq τ] [DecidableEq ι]

/-- A step of any thread; `t` is the one in the function. -/
def step (t : τ) (ok : Nat → Bool) (s : State τ ι) (a : Action τ ι) : Option (State τ ι) :=
  match Sessions.step s.sessions a with
  | .error _ => none
  | .ok s' => if a.thread = some t then follow ok s s' a else some { s with sessions := s' }

/-- One call of `heQatBnModExp_MT` among other sessions. -/
def system (τ ι : Type) [DecidableEq τ] [DecidableEq ι] (t : τ) (slices : List (List Nat))
    (ok : Nat → Bool) : TransitionSystem (State τ ι) (Action τ ι) where
  init s := s = State.initial slices
  step := step t ok

/-- The elements of the slices. -/
def elements (worksize batchSize : Nat) : List (List Nat) :=
  (Engines.slicesMT worksize batchSize).map (·.indices)

/-- The releases of the other threads are told of the calls made. -/
def Others (t : τ) (s : State τ ι) (a : Action τ ι) : Prop :=
  a.thread = some t ∨ Sessions.Planned s.sessions a

instance (t : τ) (s : State τ ι) (a : Action τ ι) : Decidable (Others t s a) := by
  unfold Others
  infer_instance

/-! ### What is asked of a failed call -/

/-- In every run on which the device answers each request of the session, and which does not hold
up the thread in the release for ever, the release comes to its end. -/
def ReleaseEnds (t : τ) (slices : List (List Nat)) (ok : Nat → Bool) (s : State τ ι)
    (bufferId : Nat) : Prop :=
  ∀ r : (system τ ι t slices ok).Run (Others t), r.state 0 = s →
    r.WeaklyFair (fun a => a.thread = some t) →
    (∀ q ∈ s.sessions.queued bufferId, ∃ n, ((r.state n).sessions.answer q).isSome) →
    ∃ n, (r.state n).place ≠ .release bufferId

/-- What has been read back is the answer to a request that was queued. -/
def ValuesAnswered (s : State τ ι) : Prop :=
  ∀ v ∈ s.remainder, ∃ r out, v.request = some r ∧ r ∈ s.sessions.runtime.submitted ∧
    s.sessions.answer r = some out ∧ v.octets = some out

/-- The batch does not hang, and returns no value of a request that was not queued. -/
def FailuresContained (τ ι : Type) [DecidableEq τ] [DecidableEq ι] (t : τ)
    (slices : List (List Nat)) (ok : Nat → Bool) : Prop :=
  ∀ s : State τ ι, (system τ ι t slices ok).ReachableIf (Others t) s →
    (∀ bufferId, s.place = .release bufferId → ReleaseEnds t slices ok s bufferId) ∧
      ValuesAnswered s

end Slices

end Ipcl.HeQat
