/-
The arithmetic of `BigNumber`.

A `BigNumber` that comes out of a copy holds its value in as many 32-bit words as
the value needs, so it is modelled by the value, an `Int`.  What an operator adds
is the destination it allocates: each one has its own formula for the number of
words, and rounds it up to 64-bit digits when IPP lays the number out.  The
definitions keep those formulas, and the theorem next to each says when they are
large enough.

The two overloads of an operator, for a `BigNumber` and for an `Ipp32u`, have
different formulas and are kept apart: the name ends in `32` for the second.
-/
import Ipcl.Ipp

namespace Ipcl

/-- `BITSIZE_WORD`: 32-bit words for `n` bits. -/
def bitsizeWord (n : Nat) : Nat := (n + 31) >>> 5

/-- `BITSIZE_DWORD`: 64-bit words for `n` bits. -/
def bitsizeDword (n : Nat) : Nat := (n + 63) >>> 6

/-- The 64-bit digits IPP gives a number created for `len` 32-bit words. -/
def roomOf (len : Nat) : Nat := (len + 1) / 2

theorem le_roomOf_bitsizeWord (n : Nat) : n ≤ 64 * roomOf (bitsizeWord n) := by
  unfold roomOf bitsizeWord
  omega

theorem fits_of_lt_two_pow {n : Nat} {x : Int} (h : x.natAbs < 2 ^ n) :
    Fits (roomOf (bitsizeWord n)) x :=
  h.trans_le (Nat.pow_le_pow_right Nat.two_pos (le_roomOf_bitsizeWord n))

namespace BigNumber

/-- The bit length `ippsRef_BN` reports: zero counts as one bit. -/
def bitLen (x : Int) : Nat := x.natAbs.log2 + 1

theorem natAbs_lt_two_pow_bitLen (x : Int) : x.natAbs < 2 ^ bitLen x := Nat.lt_log2_self

theorem bitLen_pos (x : Int) : 0 < bitLen x := Nat.succ_pos _

theorem bitLen_le_of_natAbs_le {x y : Int} (h : x.natAbs ≤ y.natAbs) : bitLen x ≤ bitLen y := by
  unfold bitLen
  by_cases hx : x.natAbs = 0
  · simp [hx]
  · exact (Nat.log2_lt hx).mpr (h.trans_lt Nat.lt_log2_self)

theorem fits_of_natAbs_le {x y : Int} (h : x.natAbs ≤ y.natAbs) :
    Fits (roomOf (bitsizeWord (bitLen y))) x :=
  fits_of_lt_two_pow (h.trans_lt (natAbs_lt_two_pow_bitLen y))

variable (ipp : Ipp)

/-! ### The operators -/

/-- `operator+` -/
def add (a b : Int) : Int :=
  ipp.add (roomOf (bitsizeWord (max (bitLen a) (bitLen b) + 1))) a b

/-- `operator+` with an `Ipp32u` -/
def add32 (a : Int) (n : UInt32) : Int :=
  ipp.add (roomOf (bitsizeWord (max (bitLen a) 32 + 1))) a n.toNat

/-- `operator-` -/
def sub (a b : Int) : Int :=
  ipp.sub (roomOf (bitsizeWord (max (bitLen a) (bitLen b)))) a b

/-- `operator-` with an `Ipp32u` -/
def sub32 (a : Int) (n : UInt32) : Int :=
  ipp.sub (roomOf (bitsizeWord (max (bitLen a) 32))) a n.toNat

/-- `operator*` -/
def mul (a b : Int) : Int :=
  ipp.mul (roomOf (bitsizeWord (bitLen a + bitLen b))) a b

/-- `operator*` with an `Ipp32u` -/
def mul32 (a : Int) (n : UInt32) : Int :=
  ipp.mul (roomOf (bitsizeWord (bitLen a + 32))) a n.toNat

/-- `operator/`: the quotient is copied from the dividend, the remainder from the divisor. -/
def div (a b : Int) : Int :=
  ipp.div (roomOf (bitsizeWord (bitLen a))) (roomOf (bitsizeWord (bitLen b))) a b

/-- `operator/` with an `Ipp32u` -/
def div32 (a : Int) (n : UInt32) : Int :=
  ipp.div (roomOf (bitsizeWord (bitLen a))) (roomOf (bitsizeWord (bitLen n.toNat))) a n.toNat

/-- `operator%`: the destination is copied from the modulus. -/
def mod (a m : Int) : Int :=
  ipp.mod (roomOf (bitsizeWord (bitLen m))) a m

/-- `operator%` with an `Ipp32u`, and `operator%=`: the destination has the words of the
number that is reduced, not those of the modulus. -/
def mod32 (a : Int) (n : UInt32) : Int :=
  ipp.mod (roomOf (bitsizeWord (bitLen a))) a n.toNat

/-- `gcd`: the destination is copied from the first operand. -/
def gcd (a b : Int) : Int :=
  ipp.gcd (roomOf (bitsizeWord (bitLen a))) a b

/-- `InverseMul`, of `a` modulo `m` -/
def inverseMul (m a : Int) : Int := ipp.modInv a m

/-- `ModMul`, of `a` and `b` modulo `m` -/
def modMul (m a b : Int) : Int := mod ipp (mul ipp a b) m

/-- `compare` -/
def compare (a b : Int) : Int :=
  let tmp := sub ipp a b
  if tmp = 0 then 0 else if tmp > 0 then 1 else -1

/-- `operator<` -/
def lt (a b : Int) : Bool := compare ipp a b < 0

/-- `operator>` -/
def gt (a b : Int) : Bool := compare ipp a b > 0

/-- `operator<=` -/
def le (a b : Int) : Bool := !gt ipp a b

/-- `operator>=` -/
def ge (a b : Int) : Bool := !lt ipp a b

/-- `operator==` -/
def eq (a b : Int) : Bool := compare ipp a b = 0

/-- `operator!=` -/
def ne (a b : Int) : Bool := compare ipp a b ≠ 0

/-! ### Modular operations -/

/-- `Modulo`, of `a` modulo `m` -/
def modulo (m a : Int) : Int := mod ipp a m

/-- `InverseAdd`, of `a` modulo `m` -/
def inverseAdd (m a : Int) : Int :=
  let t := modulo ipp m a
  if eq ipp t 0 then t else sub ipp m t

/-- `ModAdd`, of `a` and `b` modulo `m` -/
def modAdd (m a b : Int) : Int := modulo ipp m (add ipp a b)

/-- `ModSub`, of `a` and `b` modulo `m` -/
def modSub (m a b : Int) : Int := modulo ipp m (add ipp a (inverseAdd ipp m b))

/-! ### When the destination is large enough -/

theorem add_fits (a b : Int) :
    Fits (roomOf (bitsizeWord (max (bitLen a) (bitLen b) + 1))) (a + b) := by
  refine fits_of_lt_two_pow ?_
  have ha := (natAbs_lt_two_pow_bitLen a).trans_le
    (Nat.pow_le_pow_right Nat.two_pos (le_max_left (bitLen a) (bitLen b)))
  have hb := (natAbs_lt_two_pow_bitLen b).trans_le
    (Nat.pow_le_pow_right Nat.two_pos (le_max_right (bitLen a) (bitLen b)))
  have hab := Int.natAbs_add_le a b
  rw [pow_succ]
  omega

theorem add32_fits (a : Int) (n : UInt32) :
    Fits (roomOf (bitsizeWord (max (bitLen a) 32 + 1))) (a + n.toNat) := by
  refine fits_of_lt_two_pow ?_
  have ha := (natAbs_lt_two_pow_bitLen a).trans_le
    (Nat.pow_le_pow_right Nat.two_pos (le_max_left (bitLen a) 32))
  have hn : n.toNat < 2 ^ max (bitLen a) 32 :=
    n.toNat_lt.trans_le (Nat.pow_le_pow_right Nat.two_pos (le_max_right (bitLen a) 32))
  have han := Int.natAbs_add_le a n.toNat
  rw [pow_succ]
  omega

theorem mul_fits (a b : Int) : Fits (roomOf (bitsizeWord (bitLen a + bitLen b))) (a * b) := by
  refine fits_of_lt_two_pow ?_
  rw [Int.natAbs_mul, pow_add]
  exact Nat.mul_lt_mul'' (natAbs_lt_two_pow_bitLen a) (natAbs_lt_two_pow_bitLen b)

theorem mul32_fits (a : Int) (n : UInt32) :
    Fits (roomOf (bitsizeWord (bitLen a + 32))) (a * n.toNat) := by
  refine fits_of_lt_two_pow ?_
  rw [Int.natAbs_mul, pow_add]
  exact Nat.mul_lt_mul'' (natAbs_lt_two_pow_bitLen a) (by simpa using n.toNat_lt)

theorem tdiv_fits (a b : Int) : Fits (roomOf (bitsizeWord (bitLen a))) (a.tdiv b) := by
  refine fits_of_natAbs_le ?_
  rw [Int.natAbs_tdiv]
  exact Nat.div_le_self _ _

theorem tmod_fits (a : Int) {b : Int} (hb : b ≠ 0) :
    Fits (roomOf (bitsizeWord (bitLen b))) (a.tmod b) := by
  refine fits_of_natAbs_le ?_
  rw [Int.natAbs_tmod]
  exact (Nat.mod_lt _ (Int.natAbs_pos.mpr hb)).le

theorem emod_fits (a : Int) {m : Int} (hm : 0 < m) :
    Fits (roomOf (bitsizeWord (bitLen m))) (a % m) := by
  refine fits_of_natAbs_le ?_
  have h0 := Int.emod_nonneg a hm.ne'
  have h1 := Int.emod_lt_of_pos a hm
  omega

/-- A residue modulo a word fits the one digit that every number has. -/
theorem emod32_fits (a : Int) {n : UInt32} (hn : n ≠ 0) :
    Fits (roomOf (bitsizeWord (bitLen a))) (a % n.toNat) := by
  have hpos : 0 < n.toNat := Nat.pos_of_ne_zero fun hz => hn (UInt32.toNat_inj.mp hz)
  have h0 := Int.emod_nonneg a (by omega : (n.toNat : Int) ≠ 0)
  have h1 := Int.emod_lt_of_pos a (by omega : (0 : Int) < n.toNat)
  have hn := n.toNat_lt
  have hroom : 0 < roomOf (bitsizeWord (bitLen a)) := by
    have := bitLen_pos a
    unfold roomOf bitsizeWord
    omega
  calc (a % n.toNat).natAbs < 2 ^ 64 := by omega
    _ ≤ 2 ^ (64 * roomOf (bitsizeWord (bitLen a))) :=
        Nat.pow_le_pow_right Nat.two_pos (by omega)

variable {ipp} (h : ipp.Lawful)
include h

theorem add_eq (a b : Int) : add ipp a b = a + b := h.add_exact _ _ _ (add_fits a b)

theorem add32_eq (a : Int) (n : UInt32) : add32 ipp a n = a + n.toNat :=
  h.add_exact _ _ _ (add32_fits a n)

/-- A difference is exact when it is no longer than the longer operand. -/
theorem sub_eq {a b : Int} (hle : (a - b).natAbs < 2 ^ max (bitLen a) (bitLen b)) :
    sub ipp a b = a - b :=
  h.sub_exact _ _ _ (fits_of_lt_two_pow hle)

theorem sub_eq_of_nonneg {a b : Int} (ha : 0 ≤ a) (hb : 0 ≤ b) : sub ipp a b = a - b := by
  refine sub_eq h ?_
  have hla := (natAbs_lt_two_pow_bitLen a).trans_le
    (Nat.pow_le_pow_right Nat.two_pos (le_max_left (bitLen a) (bitLen b)))
  have hlb := (natAbs_lt_two_pow_bitLen b).trans_le
    (Nat.pow_le_pow_right Nat.two_pos (le_max_right (bitLen a) (bitLen b)))
  omega

theorem sub_zero_eq (a : Int) : sub ipp a 0 = a := by
  rw [sub_eq h, sub_zero]
  rw [sub_zero]
  exact (natAbs_lt_two_pow_bitLen a).trans_le
    (Nat.pow_le_pow_right Nat.two_pos (le_max_left _ _))

theorem sub32_eq_of_nonneg {a : Int} (ha : 0 ≤ a) (n : UInt32) :
    sub32 ipp a n = a - n.toNat := by
  refine h.sub_exact _ _ _ (fits_of_lt_two_pow ?_)
  have hla := (natAbs_lt_two_pow_bitLen a).trans_le
    (Nat.pow_le_pow_right Nat.two_pos (le_max_left (bitLen a) 32))
  have hn : n.toNat < 2 ^ max (bitLen a) 32 :=
    n.toNat_lt.trans_le (Nat.pow_le_pow_right Nat.two_pos (le_max_right (bitLen a) 32))
  omega

theorem mul_eq (a b : Int) : mul ipp a b = a * b := h.mul_exact _ _ _ (mul_fits a b)

theorem mul32_eq (a : Int) (n : UInt32) : mul32 ipp a n = a * n.toNat :=
  h.mul_exact _ _ _ (mul32_fits a n)

theorem div_eq (a : Int) {b : Int} (hb : b ≠ 0) : div ipp a b = a.tdiv b :=
  h.div_exact _ _ _ _ hb (tdiv_fits a b) (tmod_fits a hb)

theorem div32_eq (a : Int) {n : UInt32} (hn : n ≠ 0) : div32 ipp a n = a.tdiv n.toNat := by
  have hne : (n.toNat : Int) ≠ 0 := fun hz =>
    hn (UInt32.toNat_inj.mp (Int.natCast_eq_zero.mp hz))
  exact h.div_exact _ _ _ _ hne (tdiv_fits a _) (tmod_fits a hne)

theorem mod_eq (a : Int) {m : Int} (hm : 0 < m) : mod ipp a m = a % m :=
  h.mod_exact _ _ _ hm (emod_fits a hm)

theorem mod32_eq (a : Int) {n : UInt32} (hn : n ≠ 0) : mod32 ipp a n = a % n.toNat := by
  refine h.mod_exact _ _ _ ?_ (emod32_fits a hn)
  exact Int.natCast_pos.mpr (Nat.pos_of_ne_zero fun hz => hn (UInt32.toNat_inj.mp hz))

theorem gcd_eq {a b : Int} (ha : 0 < a) (hb : 0 < b) : gcd ipp a b = Int.gcd a b := by
  refine h.gcd_exact _ _ _ ha hb (fits_of_natAbs_le ?_)
  rw [Int.natAbs_natCast]
  exact Nat.le_of_dvd (by omega) (Int.gcd_dvd_natAbs_left a b)

theorem modMul_eq (a b : Int) {m : Int} (hm : 0 < m) : modMul ipp m a b = a * b % m := by
  rw [modMul, mul_eq h, mod_eq h _ hm]

/-! ### Comparisons of numbers that are not negative -/

theorem compare_of_nonneg {a b : Int} (ha : 0 ≤ a) (hb : 0 ≤ b) :
    compare ipp a b = if a = b then 0 else if b < a then 1 else -1 := by
  simp only [compare, sub_eq_of_nonneg h ha hb, sub_eq_zero, gt_iff_lt, sub_pos]

theorem lt_of_nonneg {a b : Int} (ha : 0 ≤ a) (hb : 0 ≤ b) : lt ipp a b = decide (a < b) := by
  unfold lt
  rw [compare_of_nonneg h ha hb]
  split_ifs <;> simp <;> omega

theorem gt_of_nonneg {a b : Int} (ha : 0 ≤ a) (hb : 0 ≤ b) : gt ipp a b = decide (b < a) := by
  unfold gt
  rw [compare_of_nonneg h ha hb]
  split_ifs <;> simp <;> omega

theorem ge_of_nonneg {a b : Int} (ha : 0 ≤ a) (hb : 0 ≤ b) : ge ipp a b = decide (b ≤ a) := by
  unfold ge
  rw [lt_of_nonneg h ha hb, ← decide_not]
  congr 1
  exact propext Int.not_lt

theorem eq_of_nonneg {a b : Int} (ha : 0 ≤ a) (hb : 0 ≤ b) : eq ipp a b = decide (a = b) := by
  unfold eq
  rw [compare_of_nonneg h ha hb]
  split_ifs <;> simp_all

theorem ne_of_nonneg {a b : Int} (ha : 0 ≤ a) (hb : 0 ≤ b) : ne ipp a b = decide (a ≠ b) := by
  unfold ne
  rw [compare_of_nonneg h ha hb]
  split_ifs <;> simp_all

/-- Comparing with zero needs no assumption on the sign. -/
theorem eq_zero (a : Int) : eq ipp a 0 = decide (a = 0) := by
  simp only [eq, compare, sub_zero_eq h]
  split_ifs <;> simp_all

/-! ### Representatives -/

section
variable {m : Int} (hm : 0 < m)
include hm

theorem inverseAdd_eq (a : Int) : inverseAdd ipp m a = -a % m := by
  have h0 := Int.emod_nonneg a hm.ne'
  have h1 := Int.emod_lt_of_pos a hm
  simp only [inverseAdd, modulo, mod_eq h a hm, eq_zero h, decide_eq_true_eq]
  by_cases hz : a % m = 0
  · rw [if_pos hz, hz]
    exact (Int.emod_eq_zero_of_dvd (Int.dvd_neg.mpr (Int.dvd_of_emod_eq_zero hz))).symm
  · rw [if_neg hz, sub_eq_of_nonneg h hm.le h0]
    have hcong : (m - a % m) % m = -a % m := by
      rw [sub_eq_add_neg, Int.add_emod, Int.emod_self, zero_add, Int.emod_emod]
      exact (Int.mod_modEq a m).neg
    rw [← hcong]
    exact (Int.emod_eq_of_lt (by omega) (by omega)).symm

theorem modAdd_eq (a b : Int) : modAdd ipp m a b = (a + b) % m := by
  rw [modAdd, modulo, add_eq h, mod_eq h _ hm]

theorem modSub_eq (a b : Int) : modSub ipp m a b = (a - b) % m := by
  rw [modSub, modulo, add_eq h, inverseAdd_eq h hm, mod_eq h _ hm, Int.add_emod_emod,
    sub_eq_add_neg]

end

end BigNumber

end Ipcl
