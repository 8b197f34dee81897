/-
Bit positions of a stored number.

`MSB` and `LSB` look for the first and the last bit of a number in the words that
`num2vec` copies out of its storage.  The storage of a number that comes out of a copy
ends with the number.  One that has been written in place may go on with digits that
are zero, and what is copied depends on the length `ippsRef_BN` reports, so here the
number is its storage and that length is a parameter.

Each function has two loops.  The outer one passes the words that are zero, `MSB` from
the top and `LSB` from the bottom, and ends at the first that is not.  The inner one
shifts this word until the bit it tests is set.  On a word of zeros it would go on for
ever, so it is a function of words that are not zero.
-/
import Ipcl.BigNumber.Bits
import Ipcl.HeQat.Misc

namespace Ipcl.BigNumber.Stored

open HeQat (Number)

/-! ### The words -/

/-- The words `ippsRef_BN` points to. -/
def words (bn : Number) : List UInt32 :=
  (Digits.fixed (2 ^ 32) (2 * bn.digits.length) bn.magnitude).map UInt32.ofNat

/-- What the documentation says of the length in bits that `ippsRef_BN` reports: it is a
length of the number, and the number is stored. -/
structure Reports (ref : Number → Nat) : Prop where
  covers : ∀ bn, bn.magnitude < 2 ^ ref bn
  stored : ∀ bn, ref bn ≤ 64 * bn.digits.length

variable (ref : Number → Nat)

/-- `num2vec` -/
def num2vec (bn : Number) : Result (List UInt32) :=
  (List.range (bitsizeWord (ref bn))).mapM fun n =>
    match (words bn)[n]? with
    | some w => .ok w
    | none => .error (.undefined "read past the words of a number")

/-! ### The scans -/

theorem and_one_eq_zero_iff {x : UInt32} : x &&& 1 = 0 ↔ x.toNat % 2 = 0 := by
  rw [← UInt32.toNat_inj, UInt32.toNat_and]
  show x.toNat &&& 1 = 0 ↔ _
  rw [Nat.and_one_is_mod]

theorem toNat_shiftRight_one (x : UInt32) : (x >>> 1).toNat = x.toNat / 2 := by
  rw [UInt32.toNat_shiftRight]
  rfl

theorem and_top_bit_iff {x : UInt32} : x &&& 0x80000000 = 0 ↔ x.toNat < 2 ^ 31 := by
  rw [← UInt32.toNat_inj, UInt32.toNat_and]
  exact and_top_bit x.toNat_lt

theorem toNat_shiftLeft_one {x : UInt32} (hx : x.toNat < 2 ^ 31) :
    (x <<< 1).toNat = 2 * x.toNat := by
  rw [UInt32.toNat_shiftLeft]
  show x.toNat <<< 1 % 2 ^ 32 = 2 * x.toNat
  rw [Nat.shiftLeft_eq, Nat.mod_eq_of_lt (by omega)]
  omega

theorem toNat_pos {x : UInt32} (hx : x ≠ 0) : 0 < x.toNat :=
  Nat.pos_of_ne_zero fun hz => hx (UInt32.toNat_inj.mp hz)

theorem shiftRight_ne_zero {x : UInt32} (hx : x ≠ 0) (heven : x &&& 1 = 0) : x >>> 1 ≠ 0 := by
  intro hz
  have hhalf := toNat_shiftRight_one x
  have hmod := and_one_eq_zero_iff.mp heven
  have hpos := toNat_pos hx
  rw [hz, UInt32.toNat_zero] at hhalf
  omega

theorem shiftLeft_ne_zero {x : UInt32} (hx : x ≠ 0) (htop : x &&& 0x80000000 = 0) :
    x <<< 1 ≠ 0 := by
  intro hz
  have htwice := toNat_shiftLeft_one (and_top_bit_iff.mp htop)
  have hpos := toNat_pos hx
  rw [hz, UInt32.toNat_zero] at htwice
  omega

/-- A word with a bit that is set. -/
abbrev SomeBit := { x : UInt32 // x ≠ 0 }

/-- The inner loop of `LSB` -/
def lsbBits (x : SomeBit) (lsb : Int) : Int :=
  if h : x.val &&& 1 = 0 then lsbBits ⟨x.val >>> 1, shiftRight_ne_zero x.property h⟩ (lsb + 1)
  else lsb
termination_by x.val.toNat
decreasing_by
  have hpos := toNat_pos x.property
  rw [toNat_shiftRight_one]
  omega

/-- The outer loop of `LSB` -/
def lsbWords : List UInt32 → Int → Int
  | [], lsb => lsb
  | x :: rest, lsb => if h : x = 0 then lsbWords rest (lsb + 32) else lsbBits ⟨x, h⟩ lsb

/-- The inner loop of `MSB` -/
def msbBits (x : SomeBit) (msb : Int) : Int :=
  if h : x.val &&& 0x80000000 = 0 then
    msbBits ⟨x.val <<< 1, shiftLeft_ne_zero x.property h⟩ (msb - 1)
  else msb
termination_by 2 ^ 32 - x.val.toNat
decreasing_by
  have hpos := toNat_pos x.property
  have hlt := and_top_bit_iff.mp h
  rw [toNat_shiftLeft_one hlt]
  omega

/-- The outer loop of `MSB`, over the words from the top -/
def msbWords : List UInt32 → Int → Int
  | [], msb => msb
  | x :: rest, msb => if h : x = 0 then msbWords rest (msb - 32) else msbBits ⟨x, h⟩ msb

variable (ipp : Ipp)

/-- `LSB`.  The comparison with zero works on a copy. -/
def lsb (bn : Number) : Result Int :=
  if eq ipp bn.toInt 0 then .ok 0
  else do
    let v ← num2vec ref bn
    pure (lsbWords v 0)

/-- `MSB` -/
def msb (bn : Number) : Result Int :=
  if eq ipp bn.toInt 0 then .ok 0
  else do
    let v ← num2vec ref bn
    pure (msbWords v.reverse (v.length * 32 - 1))

/-- `BitSize` -/
def bitSize (bn : Number) : Result Int := do
  let k ← msb ref ipp bn
  pure (k + 1)

/-- The product `operator*` computes.  The destination is sized by a copy of the left operand and
by the right operand itself. -/
def mul (x y : Number) : Int :=
  ipp.mul (roomOf (bitsizeWord (bitLen x.toInt + ref y))) x.toInt y.toInt

end Ipcl.BigNumber.Stored
