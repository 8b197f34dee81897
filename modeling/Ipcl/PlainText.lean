/-
Rotating a plaintext.

This is the code of the ciphertext rotation once more, with another guard: the negative
of the size is taken as a `std::size_t`, not as an `int`, so both ends of the range are
compared with the converted shift.
-/
import Ipcl.CipherText

namespace Ipcl.PlainText

open CipherText

/-- `rotate` -/
def rotate (pt : PlainText) (shift : Int32) : Result PlainText := do
  errorCheck (pt.size != 1) "rotate: Cannot rotate single CipherText"
  let shift := shift.toInt
  let lowest := sizeSub 0 pt.size
  errorCheck (lowest ≤ toSize shift && toSize shift ≤ pt.size)
    "rotate: Cannot shift more than the test size"
  if shift = 0 ∨ toSize shift = pt.size ∨ toSize shift = lowest then
    pure (BaseText.ofVec pt.texts)
  else
    let middle ← rotateMiddle pt.size shift
    let newBn ← stdRotate pt.getTexts middle
    pure (BaseText.ofVec newBn)

end Ipcl.PlainText
