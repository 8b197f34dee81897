/-
Operations on ciphertexts.

Adding plaintexts is multiplying ciphertexts and multiplying a plaintext by a
constant is raising its ciphertext to it, modulo `n ^ 2`.  Each operator has three
branches: one element, a vector against one element, and two vectors.  The branch
is chosen by the stored sizes, not by the lengths of the vectors.
-/
import Ipcl.PubKey

namespace Ipcl.CipherText

open BigNumber

variable (ipp : Ipp) (me : ModExp)

/-- `raw_add` -/
def rawAdd (pk : PublicKey) (a b : Int) : Int := mod ipp (mul ipp a b) pk.nsquare

/-- `operator+`, ciphertext and ciphertext -/
def addCT (a b : CipherText) : Result CipherText := do
  let bSize := b.getSize
  errorCheck (a.size == bSize || bSize == 1) "CT + CT error: Size mismatch!"
  let pk ← deref a.pk
  let pkOther ← deref b.pk
  errorCheck (eq ipp pk.n pkOther.n) "CT + CT error: 2 different public keys detected!"
  if a.size == 1 then
    let x ← elemAt a.texts 0
    let y ← elemAt b.getTexts 0
    pure (ofNumber pk (rawAdd ipp pk x y))
  else if bSize == 1 then
    let sum ← (List.range a.size).mapM fun i => do
      let x ← elemAt a.texts i
      let y ← elemAt b.texts 0
      pure (rawAdd ipp pk x y)
    pure (ofVec pk sum)
  else
    let sum ← (List.range a.size).mapM fun i => do
      let x ← elemAt a.texts i
      let y ← elemAt b.texts i
      pure (rawAdd ipp pk x y)
    pure (ofVec pk sum)

/-- `operator+`, ciphertext and plaintext -/
def addPT (a : CipherText) (other : PlainText) : Rand CipherText := do
  let pk ← (liftM (deref a.pk) : Rand PublicKey)
  let b ← pk.encrypt ipp me other false
  liftM (addCT ipp a b)

/-- `raw_mul` on numbers -/
def rawMul (pk : PublicKey) (a b : Int) : Result Int := me.one a b pk.nsquare

/-- `raw_mul` on vectors -/
def rawMulVec (pk : PublicKey) (a b : List Int) : Result (List Int) :=
  me.vec a b (List.replicate a.length pk.nsquare)

/-- `operator*`, ciphertext and plaintext -/
def mulPT (a : CipherText) (b : PlainText) : Result CipherText := do
  let bSize := b.getSize
  errorCheck (a.size == bSize || bSize == 1) "CT * PT error: Size mismatch!"
  let pk ← deref a.pk
  if a.size == 1 then
    let x ← elemAt a.texts 0
    let y ← elemAt b.getTexts 0
    let product ← rawMul me pk x y
    pure (ofNumber pk product)
  else if bSize == 1 then
    let y ← b.getElement 0
    let product ← rawMulVec me pk a.texts (List.replicate a.size y)
    pure (ofVec pk product)
  else
    let product ← rawMulVec me pk a.texts b.getTexts
    pure (ofVec pk product)

/-! ### Rotation

A shift is an `int` and the size a `std::size_t`.  Where the two are compared or
subtracted the `int` is converted, so a negative shift becomes a number near `2 ^ 64`;
where the size is cast it keeps its low 32 bits. -/

/-- The conversion of an `int` to `std::size_t` -/
@[irreducible] def toSize (i : Int) : Nat := (i % 2 ^ 64).toNat

/-- The difference of two `std::size_t` -/
@[irreducible] def sizeSub (a b : Nat) : Nat := (a + 2 ^ 64 - b) % 2 ^ 64

/-- The negative of an `int` -/
def negInt (i : Int) : Result Int :=
  if i = -2 ^ 31 then .error (.undefined "overflow of an int") else .ok (-i)

/-- `std::rotate` of a whole vector around the element `middle` -/
def stdRotate (xs : List Int) (middle : Int) : Result (List Int) :=
  if 0 ≤ middle ∧ middle ≤ xs.length then .ok (xs.rotate middle.toNat)
  else .error (.undefined "iterator outside a vector")

/-- Where `rotate` turns the vector around. -/
def rotateMiddle (size : Nat) (shift : Int) : Result Int :=
  if shift > 0 then .ok (toInt (sizeSub size (toSize shift))) else negInt shift

/-- `rotate` -/
def rotate (ct : CipherText) (shift : Int32) : Result CipherText := do
  errorCheck (ct.size != 1) "rotate: Cannot rotate single CipherText"
  let shift := shift.toInt
  let lowest ← negInt (toInt ct.size)
  errorCheck (lowest ≤ shift && toSize shift ≤ ct.size)
    "rotate: Cannot shift more than the test size"
  if shift = 0 ∨ toSize shift = ct.size ∨ shift = lowest then
    let pk ← deref ct.pk
    pure (ofVec pk ct.texts)
  else
    let middle ← rotateMiddle ct.size shift
    let newBn ← stdRotate ct.getTexts middle
    let pk ← deref ct.pk
    pure (ofVec pk newBn)

end Ipcl.CipherText
