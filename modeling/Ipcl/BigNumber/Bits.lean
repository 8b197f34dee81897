/-
Words and bit positions of a `BigNumber`.

`num2vec` copies the 32-bit words of a number, least significant first, and `MSB`
walks them from the top: it skips the zero words, then shifts the first word that
is not zero until its top bit is set.  For a number that comes out of a copy the
top word is never zero unless the number is, so the walk ends at the first word
and finds the binary logarithm.
-/
import Ipcl.BigNumber
import Ipcl.Lib.Digits

namespace Ipcl.BigNumber

/-- The value of a list of 32-bit words, least significant first. -/
def ofWords (ws : List Nat) : Nat := Nat.ofDigits (2 ^ 32) ws

/-- `create`, on `length` words of data.  With no words `ippsBigNumGetSize` fails and
leaves the size of the allocation unset. -/
def create (pData : List Nat) (length : Int) (neg : Bool) : Result Int :=
  if length < 1 then .error (.undefined "number of no words")
  else .ok (if neg then -(ofWords (pData.take length.toNat) : Int)
    else ofWords (pData.take length.toNat))

/-- `num2vec` -/
def num2vec (x : Int) : List Nat := Digits.fixed (2 ^ 32) (bitsizeWord (bitLen x)) x.natAbs

@[simp] theorem length_num2vec (x : Int) : (num2vec x).length = bitsizeWord (bitLen x) :=
  Digits.length_fixed _ _ _

theorem natAbs_lt_pow_words (x : Int) : x.natAbs < (2 ^ 32) ^ bitsizeWord (bitLen x) := by
  rw [← pow_mul]
  refine (natAbs_lt_two_pow_bitLen x).trans_le (Nat.pow_le_pow_right Nat.two_pos ?_)
  unfold bitsizeWord
  omega

theorem ofWords_num2vec (x : Int) : ofWords (num2vec x) = x.natAbs :=
  Digits.ofDigits_fixed_of_lt (natAbs_lt_pow_words x)

/-! ### The walk of `MSB` -/

/-- The inner loop of `MSB`, on a word that is not zero. -/
def msbBits : Nat → Nat → Int → Int
  | 0, _, msb => msb
  | fuel + 1, x, msb =>
      if x &&& 0x80000000 = 0 then msbBits fuel (x <<< 1 % 2 ^ 32) (msb - 1) else msb

/-- The outer loop of `MSB`, over the words from the top. -/
def msbWords : List Nat → Int → Int
  | [], msb => msb
  | x :: rest, msb => if x = 0 then msbWords rest (msb - 32) else msbBits 32 x msb

/-- `MSB` -/
def msb (ipp : Ipp) (x : Int) : Int :=
  if eq ipp x 0 then 0
  else msbWords (num2vec x).reverse ((num2vec x).length * 32 - 1)

/-- `BitSize` -/
def bitSize (ipp : Ipp) (x : Int) : Int := msb ipp x + 1

theorem and_top_bit {x : Nat} (hx : x < 2 ^ 32) : x &&& 0x80000000 = 0 ↔ x < 2 ^ 31 := by
  have hand : x &&& 0x80000000 = 2 ^ 31 * (x / 2 ^ 31 % 2) := by
    have h := Nat.and_two_pow x 31
    rw [Nat.testBit_eq_decide_div_mod_eq] at h
    norm_num at h ⊢
    rw [h]
    rcases Nat.mod_two_eq_zero_or_one (x / 2147483648) with hm | hm <;> simp [hm]
  rw [hand]
  omega

/-- Shifting a word up to its top bit counts the zeros above its highest bit. -/
theorem msbBits_eq {fuel x : Nat} (hpos : x ≠ 0) (hx : x < 2 ^ 32)
    (hfuel : 31 ≤ x.log2 + fuel) (msb : Int) :
    msbBits fuel x msb = msb - (31 - x.log2) := by
  have hlog : x.log2 < 32 := (Nat.log2_lt hpos).mpr hx
  induction fuel generalizing x msb with
  | zero =>
      have : x.log2 = 31 := by omega
      simp [msbBits, this]
  | succ fuel ih =>
      rw [msbBits]
      by_cases htop : x &&& 0x80000000 = 0
      · rw [if_pos htop]
        have hlt : x < 2 ^ 31 := (and_top_bit hx).mp htop
        have hshift : x <<< 1 % 2 ^ 32 = 2 * x := by
          rw [Nat.shiftLeft_eq, Nat.mod_eq_of_lt (by omega)]
          omega
        have hlog2 : (2 * x).log2 = x.log2 + 1 := by
          rw [Nat.log2_two_mul hpos]
        rw [hshift, ih (by omega) (by omega) (by omega) _
          ((Nat.log2_lt (by omega)).mpr (by omega)), hlog2]
        push_cast
        ring
      · rw [if_neg htop]
        have hge : 2 ^ 31 ≤ x := by
          by_contra hc
          exact htop ((and_top_bit hx).mpr (by omega))
        have : x.log2 = 31 := by
          have := (Nat.le_log2 hpos).mpr hge
          omega
        simp [this]

/-- The top word of a number is what its other words leave of it. -/
theorem num2vec_reverse (x : Int) :
    ∃ rest, (num2vec x).reverse
      = x.natAbs / 2 ^ (32 * (bitsizeWord (bitLen x) - 1)) :: rest := by
  obtain ⟨k, hk⟩ : ∃ k, bitsizeWord (bitLen x) = k + 1 := by
    have := bitLen_pos x
    exact ⟨bitsizeWord (bitLen x) - 1, by unfold bitsizeWord; omega⟩
  have hlt : x.natAbs / (2 ^ 32) ^ k < 2 ^ 32 := by
    have hpow := natAbs_lt_pow_words x
    rw [hk, pow_succ'] at hpow
    exact Nat.div_lt_of_lt_mul (by rwa [Nat.mul_comm] at hpow)
  refine ⟨(Digits.fixed (2 ^ 32) k x.natAbs).reverse, ?_⟩
  rw [num2vec, hk, Nat.add_sub_cancel, pow_mul, Digits.fixed, List.range_succ, List.map_append,
    List.reverse_append]
  simpa [Digits.fixed] using hlt

theorem log2_div_two_pow {v k : Nat} (h : 2 ^ k ≤ v) : (v / 2 ^ k).log2 = v.log2 - k := by
  have hv : v ≠ 0 := by
    have := Nat.two_pow_pos k
    omega
  have hk : k ≤ v.log2 := (Nat.le_log2 hv).mpr h
  have hne : v / 2 ^ k ≠ 0 := (Nat.div_pos h (Nat.two_pow_pos k)).ne'
  apply le_antisymm
  · have hlt : v / 2 ^ k < 2 ^ (v.log2 - k + 1) := by
      rw [Nat.div_lt_iff_lt_mul (Nat.two_pow_pos k), ← pow_add,
        show v.log2 - k + 1 + k = v.log2 + 1 by omega]
      exact Nat.lt_log2_self
    exact Nat.lt_succ_iff.mp ((Nat.log2_lt hne).mpr hlt)
  · refine (Nat.le_log2 hne).mpr ?_
    rw [Nat.le_div_iff_mul_le (Nat.two_pow_pos k), ← pow_add, show v.log2 - k + k = v.log2 by omega]
    exact Nat.log2_self_le hv

variable {ipp : Ipp} (h : ipp.Lawful)
include h

theorem msb_eq {x : Int} (hx : x ≠ 0) : msb ipp x = x.natAbs.log2 := by
  have hne : x.natAbs ≠ 0 := Int.natAbs_ne_zero.mpr hx
  obtain ⟨rest, hrev⟩ := num2vec_reverse x
  have hbit : bitLen x = x.natAbs.log2 + 1 := rfl
  set k := bitsizeWord (bitLen x) - 1 with hk
  have hlow : 32 * k ≤ x.natAbs.log2 := by
    rw [hk, hbit]
    unfold bitsizeWord
    omega
  have hhigh : x.natAbs.log2 < 32 * k + 32 := by
    rw [hk, hbit]
    unfold bitsizeWord
    omega
  have hle : 2 ^ (32 * k) ≤ x.natAbs := (Nat.le_log2 hne).mp hlow
  have htop : x.natAbs / 2 ^ (32 * k) ≠ 0 := (Nat.div_pos hle (Nat.two_pow_pos _)).ne'
  have hlog : (x.natAbs / 2 ^ (32 * k)).log2 = x.natAbs.log2 - 32 * k := log2_div_two_pow hle
  have hlen : bitsizeWord (bitLen x) = k + 1 := by
    rw [hk, hbit]
    unfold bitsizeWord
    omega
  have hw : x.natAbs / 2 ^ (32 * k) < 2 ^ 32 := (Nat.log2_lt htop).mp (by omega)
  rw [msb, eq_zero h, if_neg (by simpa using hx), hrev, msbWords, if_neg htop,
    msbBits_eq htop hw (by omega), hlog, length_num2vec, hlen]
  push_cast [hlow]
  ring

theorem bitSize_eq {x : Int} (hx : x ≠ 0) : bitSize ipp x = bitLen x := by
  rw [bitSize, msb_eq h hx]
  rfl

/-- `BitSize` pins a positive number between two powers of two. -/
theorem bitSize_eq_iff {x : Int} (hx : 0 < x) {k : Nat} :
    bitSize ipp x = (k + 1 : Nat) ↔ 2 ^ k ≤ x ∧ x < 2 ^ (k + 1) := by
  have hne : x.natAbs ≠ 0 := Int.natAbs_ne_zero.mpr hx.ne'
  have hcast : ((x.natAbs : Nat) : Int) = x := Int.natAbs_of_nonneg hx.le
  rw [bitSize_eq h hx.ne', Nat.cast_inj, ← hcast]
  unfold bitLen
  rw [Int.natAbs_natCast]
  constructor
  · intro heq
    have hlog : x.natAbs.log2 = k := by omega
    refine ⟨?_, ?_⟩
    · have := Nat.log2_self_le hne
      rw [hlog] at this
      exact_mod_cast this
    · have := Nat.lt_log2_self (n := x.natAbs)
      rw [hlog] at this
      exact_mod_cast this
  · intro hbits
    obtain ⟨hlo, hhi⟩ := hbits
    have hlo' : 2 ^ k ≤ x.natAbs := by exact_mod_cast hlo
    have hhi' : x.natAbs < 2 ^ (k + 1) := by exact_mod_cast hhi
    have h1 := (Nat.le_log2 hne).mpr hlo'
    have h2 := (Nat.log2_lt hne).mpr hhi'
    omega

end Ipcl.BigNumber
