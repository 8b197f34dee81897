/-
Printing a number in base 16.
-/
import Ipcl.BigNumber.Bits

namespace Ipcl.BigNumber

/-- `HexDigitList` -/
def hexDigitList : List Char :=
  ['0', '1', '2', '3', '4', '5', '6', '7', '8', '9', 'a', 'b', 'c', 'd', 'e', 'f']

/-- The digit of a word in position `nd`. -/
def hexDigit (x nd : Nat) : Char := hexDigitList.getD ((x >>> (nd * 4)) &&& 0xF) '0'

/-- The body of the inner loop of `num2hex`: `firstNoZero` is set once a digit other than
`0` has been seen. -/
def hexPush (st : Bool × String) (c : Char) : Bool × String :=
  if c ≠ '0' ∨ st.1 = true then (true, st.2.push c) else st

/-- `num2hex` -/
def num2hex (x : Int) : String :=
  let head := if x < 0 then "-0x" else "0x"
  let digits := (num2vec x).reverse.flatMap fun w => (List.range 8).reverse.map (hexDigit w)
  (digits.foldl hexPush (false, head)).2

end Ipcl.BigNumber
