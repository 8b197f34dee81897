/-
What `heQatBnModExp_MT` returns.

The slices of `Ipcl.HeQat.Slices` are those of one call, and it is known there which calls have
queued a request and whose answer is read for which element.  Here are the numbers.  A request
carries the octet strings of the operands of its element, so what the device answers it with is a
matter of the element.  The requests of other threads may be answered with anything.

After the release of a slice its results are read into `remainder`, one after the other.  Where
no result has been stored, the memory still is as the function has cleared it.
-/
import Ipcl.HeQat.Slices

namespace Ipcl.HeQat.Slices

open Sessions (Action)

variable {τ ι : Type}

/-- The buffer of the slice in progress. -/
def At.bufferId : At → Option Nat
  | .acquire => none
  | .call id _ => some id
  | .release id => some id

/-- The elements of the slice in progress for which a call has been made, with what it queued. -/
def State.asked (s : State τ ι) : List (Nat × Option (Request ι)) :=
  match s.place.bufferId with
  | some id => (s.slices.headD []).zip (s.sessions.calls id)
  | none => []

/-- The answers that an action of the device brings. -/
def answers : Action τ ι → List (Request ι × List Nat)
  | .callback r out => [(r, out)]
  | _ => []

/-- The device answers a request for element `e` of the slice with what `compute e` says. -/
def Computes (compute : Nat → Result (List Nat)) (s : State τ ι) (a : Action τ ι) : Prop :=
  ∀ y ∈ answers a, ∀ x ∈ s.asked, x.2 = some y.1 → compute x.1 = .ok y.2

/-- The length of an operand in octets. -/
def operandLength (en : Engines) (modulus : List Int) : Nat :=
  bitsizeWord (BigNumber.bitSize en.ipp (modulus.headD 0)).toNat * 4

/-- What the device is to answer. -/
def answerFor (en : Engines) (base exponent modulus : List Int) : Nat → Result (List Nat) :=
  en.request (operandLength en modulus) base exponent modulus

/-- `remainder`, when these results have been read into it. -/
def collected (length worksize : Nat) (values : List (Value ι)) : Result (List Int) :=
  values.foldlM (fun remainder v =>
      Engines.collect length "residue bn_remainder_data_: failed at BigNumber::fromBin()\n"
        remainder v.element (v.octets.getD (List.replicate length 0)))
    (List.replicate worksize 0)

/-- `worksize` -/
def worksize (base : List Int) : Nat := base.length % 2 ^ 32

instance (compute : Nat → Result (List Nat)) [DecidableEq ι] (s : State τ ι) (a : Action τ ι) :
    Decidable (Computes compute s a) := by
  unfold Computes
  infer_instance

variable [DecidableEq τ] [DecidableEq ι]

/-- What is asked of the other threads and of the device. -/
def Conforms (en : Engines) (base exponent modulus : List Int) (t : τ) (s : State τ ι)
    (a : Action τ ι) : Prop :=
  Others t s a ∧ Computes (answerFor en base exponent modulus) s a

instance (en : Engines) (base exponent modulus : List Int) (t : τ) (s : State τ ι)
    (a : Action τ ι) : Decidable (Conforms en base exponent modulus t s a) := by
  unfold Conforms
  infer_instance

end Ipcl.HeQat.Slices
