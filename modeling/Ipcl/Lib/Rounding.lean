/-
Rounding to the nearest.

A rounding takes every number to one of a set of representable numbers that is nearest to
it.  That alone makes it monotone, and it leaves no representable number between a number
and what it is rounded to.

The second part is about the binary floating-point numbers with a precision and a least
exponent: rounding ties to even is such a rounding, and a product with a factor below one
is rounded below the other factor.
-/
import Mathlib

namespace Rounding

/-- Every number goes to a nearest one of `F`. -/
structure Nearest (F : Set ℚ) (rnd : ℚ → ℚ) : Prop where
  mem : ∀ x, rnd x ∈ F
  nearest : ∀ x, ∀ y ∈ F, |x - rnd x| ≤ |x - y|

namespace Nearest

variable {F : Set ℚ} {rnd : ℚ → ℚ} (h : Nearest F rnd) {x y z : ℚ}
include h

theorem fix (hx : x ∈ F) : rnd x = x := by
  have hzero := h.nearest x x hx
  rw [sub_self, abs_zero] at hzero
  have heq := abs_eq_zero.mp (le_antisymm hzero (abs_nonneg _))
  linarith

/-- No representable number lies between a number and what it is rounded to. -/
theorem le_of_lt (hz : z ∈ F) (hlt : z < rnd x) : z ≤ x := by
  by_contra hc
  have hnear := h.nearest x z hz
  rw [abs_sub_comm, abs_of_pos (by linarith), abs_sub_comm, abs_of_pos (by linarith)] at hnear
  linarith

theorem le_of_le (hy : y ∈ F) (hle : x ≤ y) : rnd x ≤ y := by
  by_contra hc
  have hyx := h.le_of_lt hy (not_le.mp hc)
  have heq : x = y := le_antisymm hle hyx
  rw [heq, h.fix hy] at hc
  exact hc le_rfl

/-- Below the middle of two representable numbers. -/
theorem lt_of_middle (hy : y ∈ F) (hyz : y < z) (hx : x < (y + z) / 2) : rnd x < z := by
  by_contra hc
  have hnear := h.nearest x y hy
  rcases le_or_gt x y with hle | hgt
  · have := h.le_of_le hy hle
    linarith
  · rw [abs_of_pos (show 0 < x - y by linarith), abs_sub_comm, abs_of_nonneg (by linarith)]
      at hnear
    linarith

theorem mono (hxy : x ≤ y) : rnd x ≤ rnd y := by
  rcases hxy.eq_or_lt with rfl | hlt
  · exact le_rfl
  by_contra hc
  have hyx := h.le_of_lt (h.mem y) (not_le.mp hc)
  have hnear := h.nearest x (rnd y) (h.mem y)
  have hnear' := h.nearest y (rnd x) (h.mem x)
  rw [abs_of_nonneg (show 0 ≤ x - rnd y by linarith)] at hnear
  rw [abs_of_nonneg (show 0 ≤ y - rnd y by linarith)] at hnear'
  have hx := neg_abs_le (x - rnd x)
  rcases abs_cases (y - rnd x) with ⟨hy, _⟩ | ⟨hy, _⟩ <;> linarith

end Nearest

/-! ### Integers -/

/-- The nearest integer, and of two the even one. -/
def halfEven (x : ℚ) : ℤ :=
  if x - ⌊x⌋ < 1 / 2 then ⌊x⌋
  else if 1 / 2 < x - ⌊x⌋ then ⌊x⌋ + 1
  else if Even ⌊x⌋ then ⌊x⌋ else ⌊x⌋ + 1

theorem halfEven_cases (x : ℚ) :
    halfEven x = ⌊x⌋ ∧ x - ⌊x⌋ ≤ 1 / 2 ∨ halfEven x = ⌊x⌋ + 1 ∧ 1 / 2 ≤ x - ⌊x⌋ := by
  unfold halfEven
  split_ifs with h1 h2 h3
  · exact .inl ⟨rfl, h1.le⟩
  · exact .inr ⟨rfl, h2.le⟩
  · exact .inl ⟨rfl, not_lt.mp h2⟩
  · exact .inr ⟨rfl, not_lt.mp h1⟩

theorem halfEven_nearest (x : ℚ) (k : ℤ) : |x - halfEven x| ≤ |x - k| := by
  have hfloor := Int.floor_le x
  have hceil := Int.lt_floor_add_one x
  rcases le_or_gt k ⌊x⌋ with hk | hk
  · have hk' : (k : ℚ) ≤ ⌊x⌋ := by exact_mod_cast hk
    rw [abs_of_nonneg (show 0 ≤ x - k by linarith)]
    rcases halfEven_cases x with ⟨heq, hx⟩ | ⟨heq, hx⟩
    · rw [heq, abs_of_nonneg (by linarith)]
      linarith
    · rw [heq, abs_sub_comm, abs_of_nonneg (by push_cast; linarith)]
      push_cast
      linarith
  · have hk' : (⌊x⌋ : ℚ) + 1 ≤ k := by exact_mod_cast hk
    rw [abs_sub_comm x k, abs_of_nonneg (show 0 ≤ k - x by linarith)]
    rcases halfEven_cases x with ⟨heq, hx⟩ | ⟨heq, hx⟩
    · rw [heq, abs_of_nonneg (by linarith)]
      linarith
    · rw [heq, abs_sub_comm, abs_of_nonneg (by push_cast; linarith)]
      push_cast
      linarith

/-- Rounding to an integer, as a rounding. -/
theorem nearest_halfEven :
    Nearest (Set.range fun k : ℤ => (k : ℚ)) fun x => (halfEven x : ℚ) where
  mem x := ⟨halfEven x, rfl⟩
  nearest x y hy := by
    obtain ⟨k, rfl⟩ := hy
    exact halfEven_nearest x k

theorem abs_halfEven_le {x : ℚ} {k : ℤ} (hx : |x| ≤ k) : |halfEven x| ≤ k := by
  obtain ⟨hlo, hhi⟩ := abs_le.mp hx
  have hup : (halfEven x : ℚ) ≤ k := nearest_halfEven.le_of_le ⟨k, rfl⟩ hhi
  have hdown : (-k : ℚ) ≤ halfEven x := by
    have hmono := nearest_halfEven.mono hlo
    rwa [nearest_halfEven.fix ⟨-k, by push_cast; rfl⟩] at hmono
  rw [abs_le]
  exact ⟨by exact_mod_cast hdown, by exact_mod_cast hup⟩

/-! ### Binary numbers -/

/-- The numbers with a significand below `2 ^ p` and an exponent from `l` on. -/
def Binary (p : ℕ) (l : ℤ) : Set ℚ :=
  {x | ∃ m e : ℤ, |m| < 2 ^ p ∧ l ≤ e ∧ x = m * 2 ^ e}

/-- The exponent a number is rounded to. -/
def exponent (p : ℕ) (l : ℤ) (x : ℚ) : ℤ := max (Int.log 2 |x| - (p - 1)) l

/-- The nearest binary number, and of two the one with an even significand. -/
def roundBinary (p : ℕ) (l : ℤ) (x : ℚ) : ℚ :=
  halfEven (x / 2 ^ exponent p l x) * 2 ^ exponent p l x

section
variable {p : ℕ} {l : ℤ} {x : ℚ}

theorem lowest_le_exponent : l ≤ exponent p l x := le_max_right _ _

theorem zero_mem_binary : (0 : ℚ) ∈ Binary p l := by
  refine ⟨0, l, ?_, le_rfl, by simp⟩
  rw [abs_zero]
  positivity

theorem two_zpow_pos (e : ℤ) : (0 : ℚ) < 2 ^ e := zpow_pos two_pos e

theorem two_zpow_add (a b : ℤ) : (2 : ℚ) ^ (a + b) = 2 ^ a * 2 ^ b := zpow_add₀ two_ne_zero a b

/-- A number is below the next power of two of its exponent. -/
theorem abs_lt_of_exponent (x : ℚ) : |x| < 2 ^ (exponent p l x + p) := by
  have hlog := Int.lt_zpow_succ_log_self one_lt_two |x|
  refine hlog.trans_le (zpow_le_zpow_right₀ one_le_two ?_)
  have := le_max_left (Int.log 2 |x| - (p - 1)) l
  unfold exponent
  omega

/-- Above the least exponent, a number is not below the power of two of its exponent. -/
theorem le_abs_of_exponent (hx : x ≠ 0) (he : l < exponent p l x) :
    (2 : ℚ) ^ (exponent p l x + p - 1) ≤ |x| := by
  have hlog := Int.zpow_log_le_self one_lt_two (abs_pos.mpr hx)
  refine le_trans (zpow_le_zpow_right₀ one_le_two ?_) hlog
  have hmax : exponent p l x = Int.log 2 |x| - (p - 1) := by
    unfold exponent at he ⊢
    rcases max_choice (Int.log 2 |x| - (p - 1)) l with hc | hc
    · exact hc
    · omega
  rw [hmax]
  omega

theorem roundBinary_mem (hp : 0 < p) (x : ℚ) : roundBinary p l x ∈ Binary p l := by
  have hbound : |x / 2 ^ exponent p l x| ≤ ((2 ^ p : ℤ) : ℚ) := by
    have hu := two_zpow_pos (exponent p l x)
    rw [abs_div, abs_of_pos hu, div_le_iff₀ hu]
    have := abs_lt_of_exponent (p := p) (l := l) x
    rw [add_comm, two_zpow_add, zpow_natCast] at this
    push_cast
    exact this.le
  have hk := abs_halfEven_le hbound
  rcases hk.lt_or_eq with hlt | heq
  · exact ⟨_, _, hlt, lowest_le_exponent, rfl⟩
  -- the significand has become the power of two
  have hone : (1 : ℤ) < 2 ^ p := one_lt_pow₀ one_lt_two (by omega)
  have hexp : l ≤ exponent p l x + p := by
    have := lowest_le_exponent (p := p) (l := l) (x := x)
    omega
  rcases (abs_eq (by positivity)).mp heq with hpow | hpow
  · refine ⟨1, exponent p l x + p, by simpa using hone, hexp, ?_⟩
    rw [roundBinary, hpow, add_comm, two_zpow_add, zpow_natCast]
    push_cast
    ring
  · refine ⟨-1, exponent p l x + p, by simpa using hone, hexp, ?_⟩
    rw [roundBinary, hpow, add_comm, two_zpow_add, zpow_natCast]
    push_cast
    ring

/-- No multiple of the unit in the last place is nearer. -/
theorem roundBinary_le_multiple (x : ℚ) (k : ℤ) :
    |x - roundBinary p l x| ≤ |x - k * 2 ^ exponent p l x| := by
  have hu := two_zpow_pos (exponent p l x)
  have hscale : ∀ j : ℤ, |x - j * 2 ^ exponent p l x|
      = |x / 2 ^ exponent p l x - j| * 2 ^ exponent p l x := by
    intro j
    rw [← abs_of_pos hu, ← abs_mul, abs_of_pos hu, sub_mul, div_mul_cancel₀ _ hu.ne']
  rw [roundBinary, hscale, hscale]
  exact mul_le_mul_of_nonneg_right (halfEven_nearest _ k) hu.le

theorem nearest_roundBinary (hp : 0 < p) : Nearest (Binary p l) (roundBinary p l) where
  mem := roundBinary_mem hp
  nearest x y hy := by
    obtain ⟨m, e, hm, he, rfl⟩ := hy
    rcases le_or_gt (exponent p l x) e with hle | hgt
    · -- a multiple of the unit
      have hmul : (m : ℚ) * 2 ^ e
          = ((m * 2 ^ (e - exponent p l x).toNat : ℤ) : ℚ) * 2 ^ exponent p l x := by
        push_cast
        rw [← zpow_natCast, Int.toNat_of_nonneg (by omega), mul_assoc, ← two_zpow_add,
          sub_add_cancel]
      rw [hmul]
      exact roundBinary_le_multiple x _
    · by_cases hx : x = 0
      · subst hx
        have hzero := roundBinary_le_multiple (p := p) (l := l) 0 0
        simp only [Int.cast_zero, zero_mul, sub_zero, abs_zero] at hzero
        exact hzero.trans (abs_nonneg _)
      -- a finer number is smaller than the power of two below `x`
      have hlow := le_abs_of_exponent hx (he.trans_lt hgt)
      have hsmall : |(m : ℚ) * 2 ^ e| ≤ 2 ^ (exponent p l x + p - 1) := by
        rw [abs_mul, abs_of_pos (two_zpow_pos e)]
        have hm' : |(m : ℚ)| ≤ 2 ^ (p : ℤ) := by
          rw [zpow_natCast]
          exact_mod_cast hm.le
        calc |(m : ℚ)| * 2 ^ e ≤ 2 ^ (p : ℤ) * 2 ^ e :=
              mul_le_mul_of_nonneg_right hm' (two_zpow_pos e).le
          _ = 2 ^ ((p : ℤ) + e) := (two_zpow_add _ _).symm
          _ ≤ 2 ^ (exponent p l x + p - 1) := zpow_le_zpow_right₀ one_le_two (by omega)
      have hpow : (2 : ℚ) ^ (exponent p l x + p - 1)
          = ((2 ^ (p - 1) : ℤ) : ℚ) * 2 ^ exponent p l x := by
        push_cast
        rw [← zpow_natCast, ← two_zpow_add]
        congr 1
        omega
      have hnear : |x - roundBinary p l x| ≤ |x| - 2 ^ (exponent p l x + p - 1) := by
        rcases abs_cases x with ⟨hxa, _⟩ | ⟨hxa, _⟩
        · have hmult := roundBinary_le_multiple (p := p) (l := l) x (2 ^ (p - 1))
          rw [← hpow, abs_of_nonneg (a := x - 2 ^ _) (by linarith)] at hmult
          linarith
        · have hmult := roundBinary_le_multiple (p := p) (l := l) x (-2 ^ (p - 1))
          rw [Int.cast_neg, neg_mul, ← hpow, abs_of_nonpos (a := x - -2 ^ _) (by linarith)]
            at hmult
          linarith
      calc |x - roundBinary p l x| ≤ |x| - 2 ^ (exponent p l x + p - 1) := hnear
        _ ≤ |x| - |(m : ℚ) * 2 ^ e| := by linarith
        _ ≤ |x - m * 2 ^ e| := abs_sub_abs_le_abs_sub _ _

/-- Whole numbers up to the precision are kept. -/
theorem natCast_mem_binary (hl : l ≤ 0) {n : ℕ} (hn : n < 2 ^ p) :
    (n : ℚ) ∈ Binary p l := by
  refine ⟨n, 0, ?_, hl, by simp⟩
  rw [abs_of_nonneg (by positivity)]
  exact_mod_cast hn

/-- The largest number below one. -/
theorem le_of_lt_one (hp : 0 < p) {r : ℚ} (hr : r ∈ Binary p l) (h1 : r < 1) :
    r ≤ 1 - 2 ^ (-p : ℤ) := by
  obtain ⟨m, e, hm, -, rfl⟩ := hr
  have hpow : (2 : ℚ) ^ (-p : ℤ) ≤ 1 / 2 := by
    calc (2 : ℚ) ^ (-p : ℤ) ≤ 2 ^ (-1 : ℤ) := zpow_le_zpow_right₀ one_le_two (by omega)
      _ = 1 / 2 := by norm_num
  rcases le_or_gt m 0 with hm0 | hm0
  · have hneg : (m : ℚ) * 2 ^ e ≤ 0 :=
      mul_nonpos_of_nonpos_of_nonneg (by exact_mod_cast hm0) (two_zpow_pos e).le
    linarith
  have hmpos : (1 : ℚ) ≤ m := by exact_mod_cast hm0
  have he : e < 0 := by
    by_contra hc
    have hge : (1 : ℚ) ≤ 2 ^ e := one_le_zpow₀ one_le_two (not_lt.mp hc)
    nlinarith
  rcases lt_or_ge e (-p : ℤ) with hlt | hge
  · -- below one half
    have hm' : (m : ℚ) ≤ 2 ^ (p : ℤ) := by
      rw [zpow_natCast]
      exact_mod_cast (abs_lt.mp hm).2.le
    have hhalf : (m : ℚ) * 2 ^ e ≤ 1 / 2 := by
      calc (m : ℚ) * 2 ^ e ≤ 2 ^ (p : ℤ) * 2 ^ e :=
            mul_le_mul_of_nonneg_right hm' (two_zpow_pos e).le
        _ = 2 ^ ((p : ℤ) + e) := (two_zpow_add _ _).symm
        _ ≤ 2 ^ (-1 : ℤ) := zpow_le_zpow_right₀ one_le_two (by omega)
        _ = 1 / 2 := by norm_num
    linarith
  · -- a multiple of `2 ^ e`, and so is one
    have hinv : ((2 ^ (-e).toNat : ℤ) : ℚ) * 2 ^ e = 1 := by
      push_cast
      rw [← zpow_natCast, Int.toNat_of_nonneg (by omega), ← two_zpow_add, neg_add_cancel,
        zpow_zero]
    have hlt : (m : ℚ) < (2 ^ (-e).toNat : ℤ) := by
      by_contra hc
      have := mul_le_mul_of_nonneg_right (not_lt.mp hc) (two_zpow_pos e).le
      linarith
    have hle : (m : ℚ) ≤ (2 ^ (-e).toNat : ℤ) - 1 := by
      have : m < 2 ^ (-e).toNat := by exact_mod_cast hlt
      have : m ≤ 2 ^ (-e).toNat - 1 := by omega
      exact_mod_cast this
    have hunit : (2 : ℚ) ^ (-p : ℤ) ≤ 2 ^ e := zpow_le_zpow_right₀ one_le_two hge
    have := mul_le_mul_of_nonneg_right hle (two_zpow_pos e).le
    rw [sub_mul, hinv, one_mul] at this
    linarith

/-- A significand of full length. -/
theorem normalised (hp : 0 < p) (hx : x ∈ Binary p l) (hpos : (2 : ℚ) ^ (l + p) ≤ x) :
    ∃ k e : ℤ, 2 ^ (p - 1) ≤ k ∧ k < 2 ^ p ∧ l < e ∧ x = k * 2 ^ e := by
  have hx0 : 0 < x := (two_zpow_pos _).trans_le hpos
  have hround := (nearest_roundBinary (l := l) hp).fix hx
  obtain ⟨e, he⟩ : ∃ e, e = exponent p l x := ⟨_, rfl⟩
  have hup := abs_lt_of_exponent (p := p) (l := l) x
  rw [abs_of_pos hx0, ← he] at hup
  have hlt : l < e := by
    have hpow := (zpow_lt_zpow_iff_right₀ one_lt_two).mp (hpos.trans_lt hup)
    omega
  have hlow := le_abs_of_exponent hx0.ne' (he ▸ hlt)
  rw [abs_of_pos hx0, ← he] at hlow
  rw [roundBinary, ← he] at hround
  refine ⟨halfEven (x / 2 ^ e), e, ?_, ?_, hlt, hround.symm⟩
  · have hle : (2 : ℚ) ^ ((p : ℤ) - 1) ≤ halfEven (x / 2 ^ e) := by
      rw [← hround, show e + p - 1 = (p - 1 : ℤ) + e by ring, two_zpow_add] at hlow
      exact le_of_mul_le_mul_right hlow (two_zpow_pos e)
    rw [show (p : ℤ) - 1 = (p - 1 : ℕ) by omega, zpow_natCast] at hle
    exact_mod_cast hle
  · have hlt' : (halfEven (x / 2 ^ e) : ℚ) < 2 ^ (p : ℤ) := by
      rw [← hround, add_comm, two_zpow_add] at hup
      exact lt_of_mul_lt_mul_right hup (two_zpow_pos e).le
    rw [zpow_natCast] at hlt'
    exact_mod_cast hlt'

/-- **A factor below one is felt.**  The product with it is rounded to a smaller number. -/
theorem roundBinary_mul_lt (hp : 0 < p) {r : ℚ} (hr : r ∈ Binary p l) (h1 : r < 1)
    (hx : x ∈ Binary p l) (hpos : (2 : ℚ) ^ (l + p) ≤ x) :
    roundBinary p l (r * x) < x := by
  have hnear := nearest_roundBinary (l := l) hp
  have hr1 := le_of_lt_one hp hr h1
  have hx0 : 0 < x := (two_zpow_pos _).trans_le hpos
  have hprod : r * x ≤ x - 2 ^ (-p : ℤ) * x := by
    have := mul_le_mul_of_nonneg_right hr1 hx0.le
    linarith
  obtain ⟨k, e, hlow, hup, he, rfl⟩ := normalised hp hx hpos
  have hhalf : (2 : ℚ) ^ (e - 1) = 2 ^ e / 2 := by
    rw [zpow_sub_one₀ two_ne_zero]
    ring
  have hunit : (2 : ℚ) ^ (-p : ℤ) * 2 ^ ((p : ℤ) - 1) = 1 / 2 := by
    rw [← two_zpow_add, show (-p : ℤ) + (p - 1) = -1 by ring]
    norm_num
  have hcast : ((2 ^ (p - 1) : ℤ) : ℚ) = 2 ^ ((p : ℤ) - 1) := by
    push_cast
    rw [show (p : ℤ) - 1 = (p - 1 : ℕ) by omega, zpow_natCast]
  have hk : (2 : ℚ) ^ ((p : ℤ) - 1) ≤ k := by
    rw [← hcast]
    exact_mod_cast hlow
  have he0 := two_zpow_pos e
  rcases hlow.eq_or_lt with heq | hlt
  · -- below a power of two the numbers are twice as dense
    have hbelow : ((2 ^ p - 1 : ℤ) : ℚ) * 2 ^ (e - 1) ∈ Binary p l := by
      refine ⟨2 ^ p - 1, e - 1, ?_, by omega, rfl⟩
      have : (1 : ℤ) ≤ 2 ^ p := one_le_pow₀ one_le_two
      rw [abs_of_nonneg (by omega)]
      omega
    have hval : ((2 ^ p - 1 : ℤ) : ℚ) * 2 ^ (e - 1) = k * 2 ^ e - 2 ^ e / 2 := by
      have hdouble : (2 : ℤ) ^ p = 2 * k := by
        rw [← heq, ← pow_succ', Nat.sub_add_cancel hp]
      rw [hdouble, hhalf]
      push_cast
      ring
    have hle : r * (k * 2 ^ e) ≤ ((2 ^ p - 1 : ℤ) : ℚ) * 2 ^ (e - 1) := by
      rw [hval]
      have : (2 : ℚ) ^ (-p : ℤ) * (k * 2 ^ e) = 2 ^ e / 2 := by
        rw [← heq, hcast, ← mul_assoc, hunit]
        ring
      linarith
    refine (hnear.le_of_le hbelow hle).trans_lt ?_
    rw [hval]
    linarith
  · -- elsewhere the product is below the middle
    have hbelow : ((k - 1 : ℤ) : ℚ) * 2 ^ e ∈ Binary p l := by
      refine ⟨k - 1, e, ?_, he.le, rfl⟩
      have : (1 : ℤ) ≤ 2 ^ (p - 1) := one_le_pow₀ one_le_two
      rw [abs_of_nonneg (by omega)]
      omega
    refine hnear.lt_of_middle hbelow ?_ ?_
    · push_cast
      nlinarith
    · have hk' : (2 : ℚ) ^ ((p : ℤ) - 1) + 1 ≤ k := by
        rw [← hcast]
        exact_mod_cast hlt
      have hpos' := two_zpow_pos (-p : ℤ)
      have hmore : 1 / 2 + (2 : ℚ) ^ (-p : ℤ) ≤ 2 ^ (-p : ℤ) * k := by
        calc 1 / 2 + (2 : ℚ) ^ (-p : ℤ) = 2 ^ (-p : ℤ) * (2 ^ ((p : ℤ) - 1) + 1) := by
              rw [mul_add, hunit, mul_one]
          _ ≤ 2 ^ (-p : ℤ) * k := mul_le_mul_of_nonneg_left hk' hpos'.le
      have hscaled := mul_le_mul_of_nonneg_right hmore he0.le
      have hgap := mul_pos hpos' he0
      push_cast
      linarith

end

end Rounding
