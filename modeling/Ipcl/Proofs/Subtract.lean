/-
When a difference fits.

The destination of a subtraction has the words of the longer operand, rounded up to
64-bit digits.  Operands of the same sign never need more.  Operands of opposite signs
add their magnitudes, and the sum may carry into a digit that is not there; the status
that says so is dropped, and what is left in the destination is not the difference.

A comparison subtracts and looks at the sign, so it is exact when the subtraction is.
-/
import Ipcl.BigNumber

namespace Ipcl

/-- A difference that does not fit the destination is not what the destination holds. -/
def Ipp.SubOverflows (ipp : Ipp) : Prop :=
  ∀ room a b, ¬ Fits room (a - b) → ipp.sub room a b ≠ a - b

namespace BigNumber

/-- The bits of the digits that hold the longer of two numbers. -/
def digitBits (m n : ℕ) : ℕ := 64 * roomOf (bitsizeWord (max m n))

/-- One number is positive and the other negative. -/
def Opposite (a b : ℤ) : Prop := a < 0 ∧ 0 < b ∨ 0 < a ∧ b < 0

instance (a b : ℤ) : Decidable (Opposite a b) := by
  unfold Opposite
  infer_instance

/-- The magnitudes of numbers with opposite signs add up to less than the digits of the
longer one hold. -/
def RoomForSub (a b : ℤ) : Prop :=
  Opposite a b → a.natAbs + b.natAbs < 2 ^ digitBits (bitLen a) (bitLen b)

/-- The same with a word, which counts as 32 bits. -/
def RoomForSub32 (a : ℤ) (n : UInt32) : Prop :=
  Opposite a n.toNat → a.natAbs + n.toNat < 2 ^ digitBits (bitLen a) 32

instance (a b : ℤ) : Decidable (RoomForSub a b) := by
  unfold RoomForSub
  infer_instance

instance (a : ℤ) (n : UInt32) : Decidable (RoomForSub32 a n) := by
  unfold RoomForSub32
  infer_instance

/-- Numbers shorter than `m` and `n` bits have a difference that fits the digits of the
longer length exactly when their magnitudes, where they add up, do. -/
theorem fits_sub_iff {a b : ℤ} {m n : ℕ} (ha : a.natAbs < 2 ^ m) (hb : b.natAbs < 2 ^ n) :
    Fits (roomOf (bitsizeWord (max m n))) (a - b) ↔
      (Opposite a b → a.natAbs + b.natAbs < 2 ^ digitBits m n) := by
  have ha' := ha.trans_le (Nat.pow_le_pow_right Nat.two_pos (le_max_left m n))
  have hb' := hb.trans_le (Nat.pow_le_pow_right Nat.two_pos (le_max_right m n))
  unfold Fits digitBits
  by_cases hopp : Opposite a b
  · have hsum : (a - b).natAbs = a.natAbs + b.natAbs := by
      rcases hopp with ⟨h1, h2⟩ | ⟨h1, h2⟩ <;> omega
    rw [hsum]
    exact ⟨fun h _ => h, fun h => h hopp⟩
  · have hle : (a - b).natAbs < 2 ^ max m n := by
      unfold Opposite at hopp
      push Not at hopp
      omega
    constructor
    · intro _ hc
      exact absurd hc hopp
    · intro _
      exact fits_of_lt_two_pow hle

section
variable {ipp : Ipp} (h : ipp.Lawful) (hover : ipp.SubOverflows)
include h hover

theorem sub_eq_iff (a b : ℤ) : sub ipp a b = a - b ↔ RoomForSub a b := by
  have hfits := fits_sub_iff (natAbs_lt_two_pow_bitLen a) (natAbs_lt_two_pow_bitLen b)
  constructor
  · intro heq
    by_contra hroom
    exact hover _ a b (fun hc => hroom (hfits.mp hc)) heq
  · intro hroom
    exact h.sub_exact _ a b (hfits.mpr hroom)

theorem sub32_eq_iff (a : ℤ) (n : UInt32) : sub32 ipp a n = a - n.toNat ↔ RoomForSub32 a n := by
  have hn : ((n.toNat : ℕ) : ℤ).natAbs < 2 ^ 32 := by
    rw [Int.natAbs_natCast]
    exact n.toNat_lt
  have hfits := fits_sub_iff (natAbs_lt_two_pow_bitLen a) hn
  constructor
  · intro heq
    by_contra hroom
    exact hover _ a n.toNat (fun hc => hroom (hfits.mp hc)) heq
  · intro hroom
    exact h.sub_exact _ a n.toNat (hfits.mpr hroom)

omit h hover

/-- The two subtractions are exact and the comparisons are those of the integers. -/
structure ExactDifference (ipp : Ipp) (a b : ℤ) (n : UInt32) : Prop where
  sub : sub ipp a b = a - b
  sub32 : sub32 ipp a n = a - n.toNat
  compare : compare ipp a b = (a - b).sign
  lt : lt ipp a b = decide (a < b)
  gt : gt ipp a b = decide (a > b)
  le : le ipp a b = decide (a ≤ b)
  ge : ge ipp a b = decide (a ≥ b)
  eq : eq ipp a b = decide (a = b)
  ne : ne ipp a b = decide (a ≠ b)

theorem compare_of_sub {a b : ℤ} (hsub : BigNumber.sub ipp a b = a - b) :
    BigNumber.compare ipp a b = (a - b).sign := by
  simp only [BigNumber.compare, hsub]
  rcases Int.lt_trichotomy (a - b) 0 with hneg | hzero | hpos
  · rw [if_neg (by omega), if_neg (by omega), Int.sign_eq_neg_one_of_neg hneg]
  · rw [if_pos hzero, hzero, Int.sign_zero]
  · rw [if_neg (by omega), if_pos hpos, Int.sign_eq_one_of_pos hpos]

theorem lt_of_compare {a b : ℤ} (hcmp : BigNumber.compare ipp a b = (a - b).sign) :
    BigNumber.lt ipp a b = decide (a < b) := by
  rw [BigNumber.lt, hcmp, decide_eq_decide, Int.sign_neg_iff]
  exact sub_neg

theorem gt_of_compare {a b : ℤ} (hcmp : BigNumber.compare ipp a b = (a - b).sign) :
    BigNumber.gt ipp a b = decide (a > b) := by
  rw [BigNumber.gt, hcmp, decide_eq_decide, gt_iff_lt, Int.sign_pos_iff, Int.sub_pos]

theorem eq_of_compare {a b : ℤ} (hcmp : BigNumber.compare ipp a b = (a - b).sign) :
    BigNumber.eq ipp a b = decide (a = b) := by
  rw [BigNumber.eq, hcmp, decide_eq_decide, Int.sign_eq_zero_iff_zero, Int.sub_eq_zero]

/-- The comparisons are exact as soon as the subtraction is. -/
theorem ExactDifference.of_sub {a b : ℤ} {n : UInt32} (hsub : BigNumber.sub ipp a b = a - b)
    (hsub32 : BigNumber.sub32 ipp a n = a - n.toNat) : ExactDifference ipp a b n := by
  have hcmp := compare_of_sub hsub
  refine ⟨hsub, hsub32, hcmp, lt_of_compare hcmp, gt_of_compare hcmp, ?_, ?_,
    eq_of_compare hcmp, ?_⟩
  · rw [BigNumber.le, gt_of_compare hcmp, ← decide_not, decide_eq_decide]
    exact not_lt
  · rw [BigNumber.ge, lt_of_compare hcmp, ← decide_not, decide_eq_decide]
    exact not_lt
  · have heq := eq_of_compare hcmp
    unfold BigNumber.eq at heq
    rw [BigNumber.ne, decide_not, heq, ← decide_not]

include h hover

/-- **Differences and comparisons are exact when magnitudes that add up fit the digits of
the longer operand.** -/
theorem exact_difference_iff (a b : ℤ) (n : UInt32) :
    ExactDifference ipp a b n ↔ RoomForSub a b ∧ RoomForSub32 a n := by
  rw [← sub_eq_iff h hover, ← sub32_eq_iff h hover]
  constructor
  · intro hex
    exact ⟨hex.sub, hex.sub32⟩
  · intro hboth
    obtain ⟨hsub, hsub32⟩ := hboth
    exact .of_sub hsub hsub32

end

/-! ### Primitives with a bounded subtraction -/

instance (room : ℕ) (x : ℤ) : Decidable (Fits room x) := by
  unfold Fits
  infer_instance

/-- The reference primitives, with a subtraction that leaves zero where the difference does
not fit. -/
def boundedIpp : Ipp :=
  { Ipp.reference with sub := fun room a b => if Fits room (a - b) then a - b else 0 }

theorem boundedIpp_lawful : boundedIpp.Lawful :=
  { Ipp.reference_lawful with sub_exact := fun _ _ _ hfits => if_pos hfits }

theorem boundedIpp_subOverflows : boundedIpp.SubOverflows := by
  intro room a b hfits heq
  have hzero : a - b = 0 := by
    rw [← heq]
    exact if_neg hfits
  refine hfits ?_
  rw [hzero]
  exact Nat.two_pow_pos _

/-- Two numbers of one digit and opposite signs. -/
theorem exact_difference_five_three : ExactDifference boundedIpp (-5) 3 7 :=
  (exact_difference_iff boundedIpp_lawful boundedIpp_subOverflows (-5) 3 7).mpr
    ⟨by decide, by decide⟩

/-- The largest number of one digit is taken for equal to `-1`. -/
theorem not_exact_difference_one_digit : eq boundedIpp (2 ^ 64 - 1) (-1) = true ∧
    ¬ ExactDifference boundedIpp (2 ^ 64 - 1) (-1) 0 := by
  have heq : eq boundedIpp (2 ^ 64 - 1) (-1) = true := by decide
  refine ⟨heq, fun hex => ?_⟩
  have := hex.eq
  rw [heq] at this
  exact absurd this (by decide)

end BigNumber

end Ipcl
