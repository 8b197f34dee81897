/-
The objects the library hands out.

A `BaseText` stores its number of elements next to the elements, and the code
reads the stored number; nothing in the type ties the two together.  A `CipherText`
holds its key behind a shared pointer, empty in a default-constructed object.
-/
import Ipcl.Ipp
import Ipcl.Lib.Vec

namespace Ipcl

/-! ### Sizes that become an `int` -/

/-- The conversion of a `std::size_t` to `int` -/
@[irreducible] def toInt (n : Nat) : Int := Int.bmod n (2 ^ 32)

theorem toInt_eq (n : Nat) :
    toInt n = if n % 2 ^ 32 < 2 ^ 31 then ((n % 2 ^ 32 : Nat) : Int)
      else (n % 2 ^ 32 : Nat) - 2 ^ 32 := by
  unfold toInt Int.bmod
  norm_num
  split_ifs <;> omega

theorem toInt_of_lt {n : Nat} (hn : n < 2 ^ 31) : toInt n = n := by
  rw [toInt_eq]
  split_ifs <;> omega

/-- The counter of a loop up to `n` that is declared `int`. -/
def intLoop (n : Nat) : Result Unit :=
  if n < 2 ^ 31 then .ok () else .error (.undefined "overflow of a loop counter")

@[simp] theorem intLoop_ok {n : Nat} (h : n < 2 ^ 31) : intLoop n = .ok () := if_pos h

theorem lt_of_intLoop {n : Nat} {α : Type} {f : Unit → Result α} {a : α}
    (h : intLoop n >>= f = .ok a) : n < 2 ^ 31 := by
  by_contra hc
  rw [intLoop, if_neg hc] at h
  cases h

/-! ### Vectors -/

/-- Reading an element of a vector. -/
def elemAt {α : Type} (xs : List α) (i : Nat) : Result α :=
  match xs[i]? with
  | some x => .ok x
  | none => .error (.undefined "vector index out of range")

theorem elemAt_eq {α : Type} {xs : List α} {i : Nat} (hi : i < xs.length) :
    elemAt xs i = .ok xs[i] := by
  simp [elemAt, List.getElem?_eq_getElem hi]

theorem mem_of_elemAt {α : Type} {xs : List α} {i : Nat} {x : α} (h : elemAt xs i = .ok x) :
    x ∈ xs := by
  unfold elemAt at h
  cases hx : xs[i]? with
  | none => rw [hx] at h; cases h
  | some y =>
      rw [hx] at h
      cases h
      exact List.mem_of_getElem? hx

/-- A loop that writes a function of each element. -/
theorem mapM_elemAt {α β : Type} (f : α → β) {xs : List α} {n : Nat} (hn : n = xs.length) :
    ((List.range n).mapM fun i => do
      let x ← elemAt xs i
      pure (f x) : Result (List β)) = .ok (xs.map f) := by
  refine Vec.mapM_range_eq_ok (by rw [List.length_map, hn]) fun i hi => ?_
  rw [elemAt_eq (by simpa using hi), List.getElem_map]
  rfl

/-- A loop that writes a function of the elements of two vectors. -/
theorem mapM_elemAt₂ {α β γ : Type} (f : α → β → γ) {xs : List α} {ys : List β} {n : Nat}
    (hn : n = xs.length) (hlen : ys.length = xs.length) :
    ((List.range n).mapM fun i => do
      let x ← elemAt xs i
      let y ← elemAt ys i
      pure (f x y) : Result (List γ)) = .ok (List.zipWith f xs ys) := by
  have hzip : (List.zipWith f xs ys).length = xs.length := by
    rw [List.length_zipWith, hlen, min_self]
  refine Vec.mapM_range_eq_ok (by rw [hzip, hn]) fun i hi => ?_
  rw [hzip] at hi
  rw [elemAt_eq hi, elemAt_eq (by omega : i < ys.length), List.getElem_zipWith]
  rfl

/-! ### Texts and keys -/

/-- `BaseText` -/
structure BaseText where
  texts : List Int
  size : Nat
  deriving DecidableEq, Repr

namespace BaseText

/-- `BaseText()`, defaulted.  No initialiser stores a size, so it is what the memory held,
zero where the object is value-initialised. -/
def fresh (held : Nat) : BaseText := ⟨[], held⟩

/-- `BaseText(const std::vector<BigNumber>&)` -/
def ofVec (bnV : List Int) : BaseText := ⟨bnV, bnV.length⟩

/-- `BaseText(const BigNumber&)` -/
def ofNumber (bn : Int) : BaseText := ⟨[bn], 1⟩

/-- `getTexts` -/
def getTexts (t : BaseText) : List Int := t.texts

/-- `getSize` -/
def getSize (t : BaseText) : Nat := t.size

/-- `getElement` -/
def getElement (t : BaseText) (idx : Nat) : Result Int := do
  errorCheck (idx < t.size) "BaseText: getElement index is out of range"
  elemAt t.texts idx

end BaseText

/-- `PlainText` -/
abbrev PlainText := BaseText

/-- `PublicKey` -/
structure PublicKey where
  isInitialized : Bool
  n : Int
  g : Int
  nsquare : Int
  bits : Int
  dwords : Int
  hs : Int
  randbits : Int
  djnEnabled : Bool
  r : List Int
  testv : Bool
  deriving DecidableEq, Repr

/-- `CipherText` -/
structure CipherText extends BaseText where
  pk : Option PublicKey
  deriving DecidableEq, Repr

namespace CipherText

/-- `CipherText()`, defaulted -/
def fresh (held : Nat) : CipherText := { BaseText.fresh held with pk := none }

/-- `CipherText(const PublicKey&, const std::vector<BigNumber>&)` -/
def ofVec (pk : PublicKey) (bnV : List Int) : CipherText :=
  { BaseText.ofVec bnV with pk := some pk }

/-- `CipherText(const PublicKey&, const BigNumber&)` -/
def ofNumber (pk : PublicKey) (bn : Int) : CipherText :=
  { BaseText.ofNumber bn with pk := some pk }

end CipherText

end Ipcl
