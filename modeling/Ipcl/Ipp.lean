/-
The primitives the library calls and does not contain.

`BigNumber` is a thin layer over the big-number functions of IPP Cryptography,
which are not part of the repository.  They enter as the parameter `Ipp`, one
field a primitive, and what the code relies on is `Ipp.Lawful`: a result that fits
the destination is exact, and a modular inverse is one when it exists.  Nothing is
said of a result that does not fit, or of an inverse that does not exist, because
the code ignores the status that would report it.

A destination is measured in 64-bit digits.  `reference` is one set of primitives
that meets the assumptions, with destinations that never run out.
-/
import Mathlib

namespace Ipcl

/-! ### How a call can end -/

/-- Why a call returns nothing. -/
inductive Error where
  /-- A `std::runtime_error` with this message. -/
  | runtime (msg : String)
  /-- The language gives what happens here no meaning. -/
  | undefined (what : String)
  /-- The process ends with `exit(1)` after printing this. -/
  | exit (msg : String)
  /-- `std::terminate` is called. -/
  | terminate
  /-- The call does not return. -/
  | hang
  /-- The random values supplied to the run have been used up. -/
  | exhausted
  deriving DecidableEq, Repr

abbrev Result (α : Type) := Except Error α

section
variable {α β : Type}

@[simp] theorem Result.bind_ok (a : α) (f : α → Result β) :
    ((Except.ok a : Result α) >>= f) = f a := rfl

@[simp] theorem Result.bind_error (e : Error) (f : α → Result β) :
    ((Except.error e : Result α) >>= f) = .error e := rfl

/-- A sequence that returns has returned from both parts. -/
theorem Result.of_bind_ok {r : Result α} {f : α → Result β} {b : β} (h : r >>= f = .ok b) :
    ∃ a, r = .ok a ∧ f a = .ok b := by
  cases r with
  | ok a => exact ⟨a, rfl, h⟩
  | error e => cases h

/-- A sequence that fails has failed in its first part, or after that has returned. -/
theorem Result.of_bind_error {r : Result α} {f : α → Result β} {e : Error}
    (h : r >>= f = .error e) : r = .error e ∨ ∃ a, r = .ok a ∧ f a = .error e := by
  cases r with
  | ok a => exact .inr ⟨a, rfl, h⟩
  | error e' =>
      cases h
      exact .inl rfl

end

/-- The macro `ERROR_CHECK`. -/
def errorCheck (e : Bool) (msg : String) : Result Unit :=
  if e then .ok () else .error (.runtime msg)

@[simp] theorem errorCheck_true (msg : String) : errorCheck true msg = .ok () := rfl

@[simp] theorem errorCheck_false (msg : String) :
    errorCheck false msg = .error (.runtime msg) := rfl

/-- The call ends with an exception. -/
def Throws {α : Type} (r : Result α) : Prop := ∃ msg, r = .error (.runtime msg)

section
variable {α β : Type} {r : Result α}

theorem not_throws_ok {a : α} : ¬ Throws (.ok a : Result α) := by
  intro hthrows
  obtain ⟨msg, h⟩ := hthrows
  cases h

theorem not_throws_undefined {what : String} :
    ¬ Throws (.error (.undefined what) : Result α) := by
  intro hthrows
  obtain ⟨msg, h⟩ := hthrows
  cases h

theorem ok_of_errorCheck {e : Bool} {msg : String} (h : errorCheck e msg = .ok ()) :
    e = true := by
  cases e with
  | true => rfl
  | false => cases h

theorem throws_of_errorCheck {e : Bool} {msg : String} {err : Error}
    (h : errorCheck e msg = .error err) : ∃ msg, err = .runtime msg := by
  cases e with
  | true => cases h
  | false =>
      cases h
      exact ⟨msg, rfl⟩

theorem Throws.bind (h : Throws r) (f : α → Result β) : Throws (r >>= f) := by
  obtain ⟨msg, rfl⟩ := h
  exact ⟨msg, rfl⟩

/-- A sequence throws in its first part, or after the first part has returned. -/
theorem Throws.of_bind {f : α → Result β} (h : Throws (r >>= f)) :
    Throws r ∨ ∃ a, r = .ok a ∧ Throws (f a) := by
  obtain ⟨msg, hmsg⟩ := h
  rcases Result.of_bind_error hmsg with hr | ⟨a, hr, hf⟩
  · exact .inl ⟨msg, hr⟩
  · exact .inr ⟨a, hr, msg, hf⟩

end

/-- Following a shared pointer that may hold nothing. -/
def deref {α : Type} : Option α → Result α
  | some a => .ok a
  | none => .error (.undefined "null pointer")

@[simp] theorem deref_some {α : Type} (a : α) : deref (some a) = .ok a := rfl

/-! ### The big-number primitives -/

/-- The value fits a destination of `room` 64-bit digits. -/
def Fits (room : Nat) (x : Int) : Prop := x.natAbs < 2 ^ (64 * room)

/-- The precondition of `ippsModInv_BN`. -/
structure Invertible (a m : Int) : Prop where
  pos : 0 < a
  lt : a < m
  coprime : Int.gcd a m = 1

/-- The big-number primitives.  The result is what the destination holds afterwards. -/
structure Ipp where
  /-- `ippsAdd_BN` -/
  add : (room : Nat) → Int → Int → Int
  /-- `ippsSub_BN` -/
  sub : (room : Nat) → Int → Int → Int
  /-- `ippsMul_BN` -/
  mul : (room : Nat) → Int → Int → Int
  /-- `ippsDiv_BN`, the quotient; the second room is the remainder's -/
  div : (room roomRem : Nat) → Int → Int → Int
  /-- `ippsMod_BN` -/
  mod : (room : Nat) → Int → Int → Int
  /-- `ippsGcd_BN` -/
  gcd : (room : Nat) → Int → Int → Int
  /-- `ippsModInv_BN`, into a destination copied from the modulus -/
  modInv : Int → Int → Int

/-- What the documentation of the primitives promises. -/
structure Ipp.Lawful (ipp : Ipp) : Prop where
  add_exact : ∀ room a b, Fits room (a + b) → ipp.add room a b = a + b
  sub_exact : ∀ room a b, Fits room (a - b) → ipp.sub room a b = a - b
  mul_exact : ∀ room a b, Fits room (a * b) → ipp.mul room a b = a * b
  div_exact : ∀ room roomRem a b, b ≠ 0 → Fits room (a.tdiv b) → Fits roomRem (a.tmod b) →
    ipp.div room roomRem a b = a.tdiv b
  mod_exact : ∀ room a m, 0 < m → Fits room (a % m) → ipp.mod room a m = a % m
  gcd_exact : ∀ room a b, 0 < a → 0 < b → Fits room (Int.gcd a b) →
    ipp.gcd room a b = Int.gcd a b
  modInv_exact : ∀ a m, Invertible a m →
    0 ≤ ipp.modInv a m ∧ ipp.modInv a m < m ∧ a * ipp.modInv a m ≡ 1 [ZMOD m]

namespace Ipp

/-- Primitives with unbounded destinations. -/
def reference : Ipp where
  add _ a b := a + b
  sub _ a b := a - b
  mul _ a b := a * b
  div _ _ a b := a.tdiv b
  mod _ a m := a % m
  gcd _ a b := Int.gcd a b
  modInv a m := Int.gcdA a m % m

theorem gcdA_inverse {a m : Int} (h : Int.gcd a m = 1) :
    a * (Int.gcdA a m % m) ≡ 1 [ZMOD m] := by
  have hab : a * Int.gcdA a m + m * Int.gcdB a m = 1 := by
    have := Int.gcd_eq_gcd_ab a m
    rw [h] at this
    simpa using this.symm
  have hinv : a * Int.gcdA a m ≡ 1 [ZMOD m] :=
    Int.modEq_iff_dvd.mpr ⟨Int.gcdB a m, by linear_combination -hab⟩
  exact ((Int.mod_modEq _ _).mul_left a).trans hinv

theorem reference_lawful : reference.Lawful where
  add_exact _ _ _ _ := rfl
  sub_exact _ _ _ _ := rfl
  mul_exact _ _ _ _ := rfl
  div_exact _ _ _ _ _ _ _ := rfl
  mod_exact _ _ _ _ _ := rfl
  gcd_exact _ _ _ _ _ _ := rfl
  modInv_exact a m ha := by
    have hm : 0 < m := ha.pos.trans ha.lt
    exact ⟨Int.emod_nonneg _ hm.ne', Int.emod_lt_of_pos _ hm, gcdA_inverse ha.coprime⟩

end Ipp

end Ipcl
