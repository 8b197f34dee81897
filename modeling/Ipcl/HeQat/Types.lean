/-
The shared structures of the QAT runtime.

A section of the code between taking a mutex and giving it back is one function on the
structure the mutex protects.  It may have to wait, it may run into an assertion, and
it may read or write where the language gives no meaning; `Stop` says which.  A section
that waits has changed nothing so far: the waits are at the top of the sections.

A slot of a ring holds a pointer to a request, or NULL.
-/
import Ipcl.Lib.Vec

namespace Ipcl.HeQat

/-- `HE_QAT_NUM_ACTIVE_INSTANCES` -/
def numActiveInstances : Nat := 8

/-- `HE_QAT_BUFFER_SIZE` -/
def bufferSize : Nat := 1024

/-- `HE_QAT_BUFFER_COUNT` -/
def bufferCount : Nat := numActiveInstances

/-! ### Sections -/

/-- Why a section does not come to its end. -/
inductive Stop where
  /-- Its wait condition holds. -/
  | blocked
  /-- This assertion fails. -/
  | assertion (text : String)
  /-- The language gives what happens here no meaning. -/
  | undefined (what : String)
  deriving DecidableEq, Repr

abbrev Section (α : Type) := Except Stop α

/-- A loop around `pthread_cond_wait`. -/
def waitWhile (c : Prop) [Decidable c] : Section Unit := if c then .error .blocked else .ok ()

/-- `assert` -/
def assertThat (c : Prop) [Decidable c] (text : String) : Section Unit :=
  if c then .ok () else .error (.assertion text)

section
variable {α β : Type}

@[simp] theorem Section.bind_ok (a : α) (f : α → Section β) :
    ((Except.ok a : Section α) >>= f) = f a := rfl

@[simp] theorem Section.bind_error (e : Stop) (f : α → Section β) :
    ((Except.error e : Section α) >>= f) = .error e := rfl

/-- A section that comes to its end has done so in each part. -/
theorem Section.bind_eq_ok {x : Section α} {f : α → Section β} {b : β} :
    x >>= f = .ok b ↔ ∃ a, x = .ok a ∧ f a = .ok b := by
  cases x with
  | error e => simp
  | ok a => simp

/-- The steps of a system are the sections that come to their end. -/
theorem Section.toOption_eq_some {x : Section α} {a : α} : x.toOption = some a ↔ x = .ok a := by
  cases x with
  | error e => simp [Except.toOption]
  | ok b => simp [Except.toOption]

end

theorem waitWhile_ok {c : Prop} [Decidable c] (h : ¬ c) : waitWhile c = .ok () := if_neg h

theorem waitWhile_blocked {c : Prop} [Decidable c] (h : c) : waitWhile c = .error .blocked :=
  if_pos h

theorem assertThat_ok {c : Prop} [Decidable c] (h : c) (text : String) :
    assertThat c text = .ok () := if_pos h

/-! ### Arrays -/

/-- Reading an element of an array of length `size`. -/
def load {β : Type} (size : Nat) (a : Nat → β) (i : Nat) : Section β :=
  if i < size then .ok (a i) else .error (.undefined "array index out of range")

/-- Writing an element of an array of length `size`. -/
def store {β : Type} (size : Nat) (a : Nat → β) (i : Nat) (x : β) : Section (Nat → β) :=
  if i < size then .ok (Function.update a i x)
  else .error (.undefined "array index out of range")

theorem load_ok {β : Type} {size : Nat} {a : Nat → β} {i : Nat} (h : i < size) :
    load size a i = .ok (a i) := if_pos h

theorem store_ok {β : Type} {size : Nat} {a : Nat → β} {i : Nat} (h : i < size) (x : β) :
    store size a i x = .ok (Function.update a i x) := if_pos h

theorem load_eq_ok {β : Type} {size : Nat} {a : Nat → β} {i : Nat} {x : β}
    (h : load size a i = .ok x) : x = a i := by
  unfold load at h
  split at h
  · exact (Except.ok.inj h).symm
  · cases h

theorem store_eq_ok {β : Type} {size : Nat} {a a' : Nat → β} {i : Nat} {x : β}
    (h : store size a i x = .ok a') : a' = Function.update a i x := by
  unfold store at h
  split at h
  · exact (Except.ok.inj h).symm
  · cases h

theorem of_waitWhile_ok {c : Prop} [Decidable c] {u : Unit} (h : waitWhile c = .ok u) : ¬ c := by
  unfold waitWhile at h
  split at h
  · cases h
  · assumption

/-! ### Structures -/

/-- `HE_QAT_RequestBuffer` -/
structure RequestBuffer (ρ : Type) where
  data : Nat → Option ρ
  count : Nat
  nextFreeSlot : Nat
  nextDataSlot : Nat
  nextDataOut : Nat

/-- `HE_QAT_OutstandingBuffer` -/
structure OutstandingBuffer (ρ : Type) where
  buffer : Nat → RequestBuffer ρ
  busyCount : Nat
  nextFreeBuffer : Nat
  freeBuffer : Nat → Int
  nextReadyBuffer : Nat
  readyBuffer : Nat → Int

/-- `HE_QAT_TaskRequestList` -/
structure TaskRequestList (ρ : Type) where
  request : Nat → Option ρ
  count : Nat

/-- A ring as the initialisation leaves it. -/
def RequestBuffer.initial {ρ : Type} : RequestBuffer ρ where
  data _ := none
  count := 0
  nextFreeSlot := 0
  nextDataSlot := 0
  nextDataOut := 0

/-- The outstanding buffers as the initialisation leaves them. -/
def OutstandingBuffer.initial {ρ : Type} : OutstandingBuffer ρ where
  buffer _ := RequestBuffer.initial
  busyCount := 0
  nextFreeBuffer := 0
  freeBuffer _ := 1
  nextReadyBuffer := 0
  readyBuffer _ := 0

/-- A list of requests as the threads initialise it. -/
def TaskRequestList.empty {ρ : Type} : TaskRequestList ρ where
  request _ := none
  count := 0

end Ipcl.HeQat
