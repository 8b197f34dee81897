/-
Texts as containers.

Every access is guarded by the stored size, and none looks at the vector itself.  What
an access beyond the end of the vector does has no meaning in the language, so these
accesses are the undefined outcomes below.

Positions and lengths are `std::size_t`.  `remove` and `getChunk` add two of them before
they compare, and that sum wraps.  The stored size needs no such care: a vector of as
many elements as a `std::size_t` can count does not exist.
-/
import Ipcl.BigNumber.Hex
import Ipcl.Types

namespace Ipcl

/-- The call has an outcome the language defines. -/
def Defined {α : Type} (r : Result α) : Prop := ∀ what, r ≠ .error (.undefined what)

theorem defined_ok {α : Type} (a : α) : Defined (.ok a : Result α) := by
  intro what h
  cases h

namespace BaseText

open BigNumber

/-- The iterator range from `i` to `j`. -/
def range (xs : List Int) (i j : Nat) : Result (List Int) :=
  if i ≤ j ∧ j ≤ xs.length then .ok ((xs.drop i).take (j - i))
  else .error (.undefined "iterator range outside a vector")

/-- `BaseText(const uint32_t&)` -/
def ofUInt32 (n : UInt32) : BaseText := ⟨[(n.toNat : Int)], 1⟩

/-- `BaseText(const std::vector<uint32_t>&)` -/
def ofUInt32s (nV : List UInt32) : BaseText :=
  let texts := nV.map fun n => (n.toNat : Int)
  ⟨texts, texts.length⟩

/-- `BaseText(const BaseText&)` -/
def copy (bt : BaseText) : BaseText := ⟨bt.getTexts, bt.getSize⟩

/-- `operator=`.  Assigning an object to itself changes nothing either. -/
def assign (_t other : BaseText) : BaseText := ⟨other.texts, other.size⟩

/-- Reading through `operator[]`. -/
def index (t : BaseText) (idx : Nat) : Result Int := do
  errorCheck (idx < t.size) "BaseText:operator[] index is out of range"
  elemAt t.texts idx

/-- Writing through `operator[]`. -/
def write (t : BaseText) (idx : Nat) (bn : Int) : Result BaseText := do
  let _ ← t.index idx
  pure { t with texts := t.texts.set idx bn }

/-- `insert` -/
def insert (t : BaseText) (pos : Nat) (bn : Int) : Result BaseText := do
  errorCheck (pos ≤ t.size) "BaseText: insert position is out of range"
  let before ← range t.texts 0 pos
  let after ← range t.texts pos t.texts.length
  pure ⟨before ++ bn :: after, t.size + 1⟩

/-- `clear` -/
def clear (_t : BaseText) : BaseText := ⟨[], 0⟩

/-- `remove` -/
def remove (t : BaseText) (pos length : UInt64) : Result BaseText := do
  errorCheck ((pos + length).toNat < t.size) "BaseText: remove position is out of range"
  let _ ← range t.texts pos.toNat (pos.toNat + length.toNat)
  pure ⟨t.texts.take pos.toNat ++ t.texts.drop (pos.toNat + length.toNat), t.size - length.toNat⟩

/-- `getElementVec` -/
def getElementVec (t : BaseText) (idx : Nat) : Result (List Nat) := do
  errorCheck (idx < t.size) "BaseText: getElementVec index is out of range"
  let x ← elemAt t.texts idx
  pure (num2vec x)

/-- `getElementHex` -/
def getElementHex (t : BaseText) (idx : Nat) : Result String := do
  errorCheck (idx < t.size) "BaseText: getElementHex index is out of range"
  let x ← elemAt t.texts idx
  pure (num2hex x)

/-- `getChunk` -/
def getChunk (t : BaseText) (start size : UInt64) : Result (List Int) := do
  errorCheck ((start + size).toNat ≤ t.size) "BaseText: getChunk parameter is incorrect"
  range t.texts start.toNat (start.toNat + size.toNat)

/-- The stored size is the number of elements. -/
def WF (t : BaseText) : Prop := t.size = t.texts.length

instance (t : BaseText) : Decidable t.WF := by
  unfold WF
  infer_instance

/-! ### What the guards let through -/

theorem range_eq {xs : List Int} {i j : Nat} (hij : i ≤ j) (hj : j ≤ xs.length) :
    range xs i j = .ok ((xs.drop i).take (j - i)) := if_pos ⟨hij, hj⟩

/-- A sum of positions that does not wrap is the sum. -/
theorem toNat_add_of_lt {a b : UInt64} (h : a.toNat + b.toNat < 2 ^ 64) :
    (a + b).toNat = a.toNat + b.toNat := by
  rw [UInt64.toNat_add, Nat.mod_eq_of_lt h]

variable {t : BaseText}

theorem index_eq (h : t.WF) {idx : Nat} (hidx : idx < t.texts.length) :
    t.index idx = .ok t.texts[idx] := by
  unfold index
  rw [elemAt_eq hidx, h, decide_eq_true hidx]
  rfl

theorem insert_eq (h : t.WF) {pos : Nat} (hpos : pos ≤ t.texts.length) (bn : Int) :
    t.insert pos bn = .ok ⟨t.texts.take pos ++ bn :: t.texts.drop pos, t.size + 1⟩ := by
  unfold insert
  rw [h, decide_eq_true hpos, range_eq (Nat.zero_le _) hpos, range_eq hpos le_rfl]
  simp

theorem remove_eq (h : t.WF) {pos length : UInt64}
    (hsum : pos.toNat + length.toNat < 2 ^ 64)
    (hlt : pos.toNat + length.toNat < t.texts.length) : t.remove pos length
      = .ok ⟨t.texts.take pos.toNat ++ t.texts.drop (pos.toNat + length.toNat),
          t.size - length.toNat⟩ := by
  unfold remove
  rw [toNat_add_of_lt hsum, h, decide_eq_true hlt,
    range_eq (Nat.le_add_right _ _) (Nat.le_of_lt hlt)]
  rfl

theorem getChunk_eq (h : t.WF) {start size : UInt64}
    (hsum : start.toNat + size.toNat < 2 ^ 64)
    (hle : start.toNat + size.toNat ≤ t.texts.length) :
    t.getChunk start size = .ok ((t.texts.drop start.toNat).take size.toNat) := by
  unfold getChunk
  rw [toNat_add_of_lt hsum, h, decide_eq_true hle, range_eq (Nat.le_add_right _ _) hle]
  simp

end BaseText

end Ipcl
