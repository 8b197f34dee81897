/-
Reading a number from a string.

The constructor takes a sign, decides between base 16 and base 10, and runs over the
characters that are left, multiplying by the base and adding the position of the
character in the table of the hexadecimal digits.  One table serves both bases, it has
the small letters only, and `strcspn` answers 16 for a character it does not have.

The first buffer is sized from the length of the string, an `int`; the assignment of zero
before the loop replaces it.
-/
import Ipcl.BigNumber.Hex

namespace Ipcl.BigNumber

/-- The characters of a C string, without the NUL that ends it. -/
abbrev CString := List Char

/-- What the constructor finds in front of the digits, and the digits. -/
structure Prefixed where
  neg : Bool
  base : UInt32
  body : CString
  deriving DecidableEq, Repr

/-- The sign. -/
def splitSign : CString → Bool × CString
  | '-' :: rest => (true, rest)
  | s => (false, s)

/-- The test for `0x` and `0X`. -/
def splitBase (neg : Bool) : CString → Prefixed
  | '0' :: 'x' :: rest => ⟨neg, 0x10, rest⟩
  | '0' :: 'X' :: rest => ⟨neg, 0x10, rest⟩
  | s => ⟨neg, 10, s⟩

def split (s : CString) : Prefixed := splitBase (splitSign s).1 (splitSign s).2

/-- `dataLen`: the length of the body as an `int`, divided by the digits of a word. -/
def Prefixed.dataLen (r : Prefixed) : Int :=
  if r.base = 0x10 then (Int.bmod (r.body.length + 7) (2 ^ 32)).tdiv 8
  else (Int.bmod (r.body.length + 9) (2 ^ 32)).tdiv 10

/-- `strcspn` on the table and one character: where the character stands, or the length of
the table. -/
def digitOf (c : Char) : Nat := hexDigitList.idxOf c

/-- The body of the loop. -/
def addDigit (ipp : Ipp) (base : UInt32) (x : Int) (c : Char) : Int :=
  add ipp (mul32 ipp x base) (digitOf c)

/-- `BigNumber(const char*)` -/
def ofString (ipp : Ipp) (s : CString) : Result Int := do
  let r := split s
  let _ ← create [] r.dataLen false
  let x := r.body.foldl (addDigit ipp r.base) 0
  pure (if r.neg then sub ipp 0 x else x)

end Ipcl.BigNumber
