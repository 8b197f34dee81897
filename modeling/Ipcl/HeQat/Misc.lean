/-
The conversion helpers of the QAT runtime.

The runtime has a `BigNumber` of its own and two helpers that turn one into an octet
string and back.  Both reach through `ippsRef_BN` into the digits of the number and copy
as many bytes as the number of bits asks for, so a number is its storage here: a list of
64-bit digits, which may be longer than the value needs and is never looked at by the
copying loop.

`binToBigNumber` first assigns a number made from the string as it stands.  The
assignment creates the storage anew from the bit length of the value, so it has room for
the digits of the number in the wrong order.
-/
import Ipcl.BigNumber.Bin
import Ipcl.Lib.Vec

namespace Ipcl.HeQat

open BigNumber

/-- The storage of a `BigNumber` and its sign. -/
structure Number where
  neg : Bool
  digits : List Nat
  lt : ∀ d ∈ digits, d < 2 ^ 64

namespace Number

/-- `create`, on `length` 32-bit words that hold `v` -/
def create (neg : Bool) (length v : Nat) : Number where
  neg := neg
  digits := Digits.fixed (2 ^ 64) (roomOf length) v
  lt _ hd := Digits.lt_of_mem_fixed (by decide) hd

/-- The magnitude -/
def magnitude (bn : Number) : Nat := Nat.ofDigits (2 ^ 64) bn.digits

/-- The value -/
def toInt (bn : Number) : Int := if bn.neg then -bn.magnitude else bn.magnitude

/-- `operator=` -/
def assign (bn : Number) : Number :=
  create bn.neg (bitsizeWord (bitLen bn.magnitude)) bn.magnitude

/-- The bytes `ippsRef_BN` points to. -/
def bytes (bn : Number) : List Nat := Digits.fixed 256 (8 * bn.digits.length) bn.magnitude

/-- The number after a loop has changed its bytes in place. -/
def withBytes (bn : Number) (data : List Nat) : Number where
  neg := bn.neg
  digits := Digits.fixed (2 ^ 64) bn.digits.length (Nat.ofDigits 256 data)
  lt _ hd := Digits.lt_of_mem_fixed (by decide) hd

end Number

/-- What the helpers return of `HE_QAT_STATUS`. -/
inductive Conversion where
  | success
  | invalidParam
  deriving DecidableEq, Repr

/-- One round of the copying loops: byte `i` of the one side becomes byte `len_ - 1 - i`
of the other. -/
def reverseByte (src : List Nat) (len : Nat) (dst : List Nat) (i : Nat) : Result (List Nat) :=
  match src[len - 1 - i]? with
  | none => .error (.undefined "read past the end of a number or a string")
  | some b =>
      if i < dst.length then .ok (dst.set i b)
      else .error (.undefined "write past the end of a number or a string")

/-- The copying loops. -/
def reverseCopy (src dst : List Nat) (len : Nat) : Result (List Nat) :=
  (List.range len).foldlM (reverseByte src len) dst

/-- `len_`, the bytes of a number of bits -/
def byteLen (nbits : Int) : Nat := ((nbits + 7) >>> (3 : Nat)).toNat

/-- `binToBigNumber` -/
def binToBigNumber (bn : Number) (data : List Nat) (nbits : Int) :
    Result (Conversion × Number) :=
  if nbits ≤ 0 then .ok (.invalidParam, bn)
  else
    let len := byteLen nbits
    let words := bitsizeWord nbits.toNat
    if data.length < 4 * words then
      .error (.undefined "read past the end of a number or a string")
    else do
      let wrong := Nat.ofDigits 256 (data.take (4 * words))
      let bn := (Number.create false words wrong).assign
      let bytes ← reverseCopy data bn.bytes len
      pure (.success, bn.withBytes bytes)

/-- `bigNumberToBin` -/
def bigNumberToBin (data : List Nat) (nbits : Int) (bn : Number) :
    Result (Conversion × List Nat) :=
  if nbits ≤ 0 then .ok (.invalidParam, data)
  else do
    let data ← reverseCopy bn.bytes data (byteLen nbits)
    pure (.success, data)

end Ipcl.HeQat
