/-
What the operators return.

Every operator but the subtraction allocates a destination that holds the integer
result whatever the signs and lengths of the operands are, so the status it drops
reports success.  Three of the formulas are close.  A sum gets one bit more than the
longer operand, and that bit may be the first of a new digit.  A remainder by a word is
laid out in the words of the number that is reduced, and what makes it fit is that a
number has at least one digit of 64 bits.  A quotient has the words of the dividend and
the remainder next to it those of the divisor.

The modular methods reduce a sum or a product, and none of the subtractions they make
has operands of opposite signs.
-/
import Ipcl.BigNumber

namespace Ipcl

namespace BigNumber

/-- `y` is the representative of `x` modulo `m`. -/
structure Representative (m x y : ℤ) : Prop where
  nonneg : 0 ≤ y
  lt : y < m
  cong : y ≡ x [ZMOD m]

theorem representative_emod {m : ℤ} (hm : 0 < m) (x : ℤ) : Representative m x (x % m) where
  nonneg := Int.emod_nonneg x hm.ne'
  lt := Int.emod_lt_of_pos x hm
  cong := Int.mod_modEq x m

/-- The destination of each operator has room for the integer result, and that is what
the operator leaves there. -/
structure ExactOperators (ipp : Ipp) : Prop where
  add : ∀ a b, Fits (roomOf (bitsizeWord (max (bitLen a) (bitLen b) + 1))) (a + b) ∧
    BigNumber.add ipp a b = a + b
  add32 : ∀ (a : ℤ) (n : UInt32),
    Fits (roomOf (bitsizeWord (max (bitLen a) 32 + 1))) (a + n.toNat) ∧
    BigNumber.add32 ipp a n = a + n.toNat
  mul : ∀ a b, Fits (roomOf (bitsizeWord (bitLen a + bitLen b))) (a * b) ∧
    BigNumber.mul ipp a b = a * b
  mul32 : ∀ (a : ℤ) (n : UInt32), Fits (roomOf (bitsizeWord (bitLen a + 32))) (a * n.toNat) ∧
    BigNumber.mul32 ipp a n = a * n.toNat
  div : ∀ a b, b ≠ 0 → Fits (roomOf (bitsizeWord (bitLen a))) (a.tdiv b) ∧
    Fits (roomOf (bitsizeWord (bitLen b))) (a.tmod b) ∧ BigNumber.div ipp a b = a.tdiv b
  div32 : ∀ (a : ℤ) (n : UInt32), n ≠ 0 →
    Fits (roomOf (bitsizeWord (bitLen a))) (a.tdiv n.toNat) ∧
    Fits (roomOf (bitsizeWord (bitLen n.toNat))) (a.tmod n.toNat) ∧
    BigNumber.div32 ipp a n = a.tdiv n.toNat
  mod : ∀ a m, 0 < m → Fits (roomOf (bitsizeWord (bitLen m))) (a % m) ∧
    Representative m a (BigNumber.mod ipp a m)
  mod32 : ∀ (a : ℤ) (n : UInt32), n ≠ 0 →
    Fits (roomOf (bitsizeWord (bitLen a))) (a % n.toNat) ∧
    Representative n.toNat a (BigNumber.mod32 ipp a n)
  modAdd : ∀ m a b, 0 < m → Representative m (a + b) (BigNumber.modAdd ipp m a b)
  modSub : ∀ m a b, 0 < m → Representative m (a - b) (BigNumber.modSub ipp m a b)
  modMul : ∀ m a b, 0 < m → Representative m (a * b) (BigNumber.modMul ipp m a b)
  inverseAdd : ∀ m a, 0 < m → Representative m (-a) (BigNumber.inverseAdd ipp m a)

theorem natCast_toNat_ne_zero {n : UInt32} (hn : n ≠ 0) : (n.toNat : ℤ) ≠ 0 := by
  intro hz
  exact hn (UInt32.toNat_inj.mp (Int.natCast_eq_zero.mp hz))

/-- **Addition, multiplication, division and reduction are exact.** -/
theorem operators_exact {ipp : Ipp} (h : ipp.Lawful) : ExactOperators ipp where
  add a b := ⟨add_fits a b, add_eq h a b⟩
  add32 a n := ⟨add32_fits a n, add32_eq h a n⟩
  mul a b := ⟨mul_fits a b, mul_eq h a b⟩
  mul32 a n := ⟨mul32_fits a n, mul32_eq h a n⟩
  div a b hb := ⟨tdiv_fits a b, tmod_fits a hb, div_eq h a hb⟩
  div32 a n hn :=
    ⟨tdiv_fits a _, tmod_fits a (natCast_toNat_ne_zero hn), div32_eq h a hn⟩
  mod a m hm := by
    rw [mod_eq h a hm]
    exact ⟨emod_fits a hm, representative_emod hm a⟩
  mod32 a n hn := by
    have hpos : (0 : ℤ) < n.toNat := by
      have := natCast_toNat_ne_zero hn
      omega
    rw [mod32_eq h a hn]
    exact ⟨emod32_fits a hn, representative_emod hpos a⟩
  modAdd m a b hm := by
    rw [modAdd_eq h hm]
    exact representative_emod hm _
  modSub m a b hm := by
    rw [modSub_eq h hm]
    exact representative_emod hm _
  modMul m a b hm := by
    rw [modMul_eq h a b hm]
    exact representative_emod hm _
  inverseAdd m a hm := by
    rw [inverseAdd_eq h hm]
    exact representative_emod hm _

/-! ### Primitives with bounded destinations -/

/-- What is left of a number in so many digits: the digits above are lost. -/
def cutTo (room : ℕ) (x : ℤ) : ℤ := x.tmod (2 ^ (64 * room))

theorem cutTo_of_fits {room : ℕ} {x : ℤ} (hx : Fits room x) : cutTo room x = x := by
  have hlt : (x.natAbs : ℤ) < 2 ^ (64 * room) := by exact_mod_cast hx
  unfold cutTo
  rcases Int.natAbs_eq x with hpos | hneg
  · rw [hpos]
    exact Int.tmod_eq_of_lt (Int.natCast_nonneg _) hlt
  · rw [hneg, Int.neg_tmod, Int.tmod_eq_of_lt (Int.natCast_nonneg _) hlt]

/-- The primitives as they are with destinations that cut a result off. -/
def cuttingIpp : Ipp where
  add room a b := cutTo room (a + b)
  sub room a b := cutTo room (a - b)
  mul room a b := cutTo room (a * b)
  div room _ a b := cutTo room (a.tdiv b)
  mod room a m := cutTo room (a % m)
  gcd room a b := cutTo room (Int.gcd a b)
  modInv := Ipp.reference.modInv

theorem cuttingIpp_lawful : cuttingIpp.Lawful where
  add_exact _ _ _ hfits := cutTo_of_fits hfits
  sub_exact _ _ _ hfits := cutTo_of_fits hfits
  mul_exact _ _ _ hfits := cutTo_of_fits hfits
  div_exact _ _ _ _ _ hfits _ := cutTo_of_fits hfits
  mod_exact _ _ _ _ hfits := cutTo_of_fits hfits
  gcd_exact _ _ _ _ _ hfits := cutTo_of_fits hfits
  modInv_exact := Ipp.reference_lawful.modInv_exact

theorem operators_exact_cutting : ExactOperators cuttingIpp := operators_exact cuttingIpp_lawful

end BigNumber

end Ipcl
