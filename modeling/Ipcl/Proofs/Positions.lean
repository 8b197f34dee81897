/-
Where the scans of `MSB` and `LSB` end.

The words `num2vec` copies have the value of the number, whatever zeros the storage goes on
with.  A number that is not zero has a word that is not zero.  `MSB` ends at the last of
them and `LSB` at the first, and what they have counted by then is the binary logarithm of
the value and the number of times it can be halved.
-/
import Ipcl.BigNumber.Positions

namespace Ipcl.BigNumber.Stored

open HeQat (Number)

/-! ### The value of the words -/

/-- The value of words, least significant first -/
def value (ws : List UInt32) : ℕ := Nat.ofDigits (2 ^ 32) (ws.map UInt32.toNat)

theorem value_append (l m : List UInt32) :
    value (l ++ m) = value l + 2 ^ (32 * l.length) * value m := by
  rw [value, List.map_append, Nat.ofDigits_append, List.length_map, ← pow_mul]
  rfl

theorem value_cons (x : UInt32) (l : List UInt32) :
    value (x :: l) = x.toNat + 2 ^ 32 * value l := by
  rw [value, List.map_cons, Nat.ofDigits_cons]
  rfl

theorem value_lt (l : List UInt32) : value l < 2 ^ (32 * l.length) := by
  have h := Nat.ofDigits_lt_base_pow_length (b := 2 ^ 32) (l := l.map UInt32.toNat) (by decide)
    fun d hd => by
      obtain ⟨x, -, rfl⟩ := List.mem_map.mp hd
      exact x.toNat_lt
  rwa [List.length_map, ← pow_mul] at h

theorem value_eq_zero_iff {l : List UInt32} : value l = 0 ↔ ∀ x ∈ l, x = 0 := by
  rw [value, Digits.ofDigits_eq_zero_iff (by decide), List.forall_mem_map]
  exact forall₂_congr fun x _ => UInt32.toNat_inj (b := 0)

theorem value_map_ofNat {ds : List ℕ} (h : ∀ d ∈ ds, d < 2 ^ 32) :
    value (ds.map UInt32.ofNat) = Nat.ofDigits (2 ^ 32) ds := by
  rw [value, List.map_map, List.map_congr_left fun d hd => ?_, List.map_id]
  exact UInt32.toNat_ofNat_of_lt (h d hd)

theorem natAbs_toInt (bn : Number) : bn.toInt.natAbs = bn.magnitude := by
  unfold Number.toInt
  split
  · rw [Int.natAbs_neg, Int.natAbs_natCast]
  · exact Int.natAbs_natCast _

/-- What `num2vec` copies has the value of the number, and is in the storage. -/
theorem num2vec_ok {ref : Number → ℕ} (href : Reports ref) (bn : Number) :
    ∃ v, num2vec ref bn = .ok v ∧ value v = bn.magnitude := by
  have hcovers := href.covers bn
  have hstored := href.stored bn
  set len := bitsizeWord (ref bn) with hlen
  have hle : len ≤ 2 * bn.digits.length := by
    rw [hlen]
    unfold bitsizeWord
    omega
  have hfits : bn.magnitude < (2 ^ 32) ^ len := by
    rw [← pow_mul]
    refine hcovers.trans_le (Nat.pow_le_pow_right Nat.two_pos ?_)
    rw [hlen]
    unfold bitsizeWord
    omega
  have htake : (words bn).take len
      = (Digits.fixed (2 ^ 32) len bn.magnitude).map UInt32.ofNat := by
    rw [words, ← List.map_take, Digits.take_fixed hle]
  refine ⟨(words bn).take len, ?_, ?_⟩
  · have hwords : (words bn).length = 2 * bn.digits.length := by simp [words]
    refine Vec.mapM_range_eq_ok (by rw [List.length_take]; omega) fun i hi => ?_
    rw [List.length_take] at hi
    rw [List.getElem?_eq_getElem (by omega), List.getElem_take]
  · rw [htake, value_map_ofNat fun d hd => Digits.lt_of_mem_fixed (by decide) hd,
      Digits.ofDigits_fixed_of_lt hfits]

/-- Among words that are not all zero there is a first with a bit. -/
theorem exists_first {v : List UInt32} (hv : value v ≠ 0) :
    ∃ (zeros rest : List UInt32) (w : SomeBit),
      v = zeros ++ w.val :: rest ∧ ∀ z ∈ zeros, z = 0 := by
  have hsome : (v.find? fun x => x ≠ 0).isSome := by
    rw [List.find?_isSome]
    by_contra hc
    refine hv (value_eq_zero_iff.mpr fun x hx => ?_)
    by_contra hne
    exact hc ⟨x, hx, by simpa using hne⟩
  obtain ⟨w, hw⟩ := Option.isSome_iff_exists.mp hsome
  obtain ⟨hne, zeros, rest, heq, hzeros⟩ := List.find?_eq_some_iff_append.mp hw
  exact ⟨zeros, rest, ⟨w, by simpa using hne⟩, heq, fun z hz => by simpa using hzeros z hz⟩

/-- And a last. -/
theorem exists_last {v : List UInt32} (hv : value v ≠ 0) :
    ∃ (low zeros : List UInt32) (w : SomeBit),
      v = low ++ w.val :: zeros ∧ ∀ z ∈ zeros, z = 0 := by
  have hrev : value v.reverse ≠ 0 := fun hc => hv (value_eq_zero_iff.mpr fun x hx =>
    value_eq_zero_iff.mp hc x (List.mem_reverse.mpr hx))
  obtain ⟨zeros, rest, w, heq, hzeros⟩ := exists_first hrev
  refine ⟨rest.reverse, zeros.reverse, w, ?_, fun z hz => hzeros z (List.mem_reverse.mp hz)⟩
  rw [← List.reverse_reverse v, heq]
  simp

/-! ### The lowest bit -/

/-- The inner loop of `LSB` counts how often the word can be halved. -/
theorem lsbBits_eq (x : SomeBit) (n : ℤ) : lsbBits x n = n + padicValNat 2 x.val.toNat := by
  induction x, n using lsbBits.induct with
  | case1 x n heven ih =>
      have hdvd : 2 ∣ x.val.toNat := Nat.dvd_of_mod_eq_zero (and_one_eq_zero_iff.mp heven)
      have hone := one_le_padicValNat_of_dvd (toNat_pos x.property).ne' hdvd
      rw [lsbBits, dif_pos heven, ih, toNat_shiftRight_one, padicValNat.div hdvd]
      push_cast [hone]
      ring
  | case2 x n hodd =>
      have hdvd : ¬ 2 ∣ x.val.toNat := fun hc =>
        hodd (and_one_eq_zero_iff.mpr (Nat.mod_eq_zero_of_dvd hc))
      rw [lsbBits, dif_neg hodd, padicValNat.eq_zero_of_not_dvd hdvd]
      simp

/-- The outer loop of `LSB` passes zeros and ends at a word with a bit. -/
theorem lsbWords_append {zeros : List UInt32} (hzeros : ∀ z ∈ zeros, z = 0) (w : SomeBit)
    (rest : List UInt32) (n : ℤ) :
    lsbWords (zeros ++ w.val :: rest) n = lsbBits w (n + 32 * zeros.length) := by
  induction zeros generalizing n with
  | nil => simp [lsbWords, w.property]
  | cons z zeros ih =>
      have hz : z = 0 := hzeros z List.mem_cons_self
      rw [List.cons_append, lsbWords, dif_pos hz,
        ih fun y hy => hzeros y (List.mem_cons_of_mem z hy)]
      congr 1
      rw [List.length_cons]
      push_cast
      ring

/-- Words above one with a bit do not change how often the value can be halved. -/
theorem padicValNat_add_mul {x : ℕ} (hx : 0 < x) (hlt : x < 2 ^ 32) (r : ℕ) :
    padicValNat 2 (x + 2 ^ 32 * r) = padicValNat 2 x := by
  have hsum : x + 2 ^ 32 * r ≠ 0 := by omega
  have hiff : ∀ j ≤ 32, 2 ^ j ∣ x + 2 ^ 32 * r ↔ 2 ^ j ∣ x := fun j hj =>
    Nat.dvd_add_left ((pow_dvd_pow 2 hj).mul_right r)
  have hval : padicValNat 2 x < 32 := by
    by_contra hc
    have hdvd := (padicValNat_dvd_iff_le hx.ne').mpr (not_lt.mp hc)
    exact absurd (Nat.le_of_dvd hx hdvd) (by omega)
  apply le_antisymm
  · by_contra hc
    have hdvd := (hiff _ (by omega)).mp ((padicValNat_dvd_iff_le hsum).mpr
      (Nat.succ_le_of_lt (not_le.mp hc)))
    exact absurd ((padicValNat_dvd_iff_le hx.ne').mp hdvd) (by omega)
  · exact (padicValNat_dvd_iff_le hsum).mp ((hiff _ hval.le).mpr pow_padicValNat_dvd)

theorem padicValNat_words {zeros : List UInt32} (hzeros : ∀ z ∈ zeros, z = 0) (w : SomeBit)
    (rest : List UInt32) :
    padicValNat 2 (value (zeros ++ w.val :: rest))
      = 32 * zeros.length + padicValNat 2 w.val.toNat := by
  have hpos := toNat_pos w.property
  rw [value_append, value_eq_zero_iff.mpr hzeros, zero_add, value_cons,
    padicValNat.mul (by positivity) (by omega), padicValNat.prime_pow,
    padicValNat_add_mul hpos w.val.toNat_lt]

/-! ### The highest bit -/

/-- The inner loop of `MSB` counts the zeros above the highest bit of the word. -/
theorem msbBits_eq_log2 (x : SomeBit) (n : ℤ) : msbBits x n = n - (31 - x.val.toNat.log2) := by
  induction x, n using msbBits.induct with
  | case1 x n hclear ih =>
      have hlt := and_top_bit_iff.mp hclear
      rw [msbBits, dif_pos hclear, ih, toNat_shiftLeft_one hlt,
        Nat.log2_two_mul (toNat_pos x.property).ne']
      push_cast
      ring
  | case2 x n hset =>
      have hge : 2 ^ 31 ≤ x.val.toNat := not_lt.mp (mt and_top_bit_iff.mpr hset)
      have hlog : x.val.toNat.log2 = 31 :=
        (Nat.log2_eq_iff (toNat_pos x.property).ne').mpr ⟨hge, x.val.toNat_lt⟩
      rw [msbBits, dif_neg hset, hlog]
      simp

/-- The outer loop of `MSB` passes zeros and ends at a word with a bit. -/
theorem msbWords_append {zeros : List UInt32} (hzeros : ∀ z ∈ zeros, z = 0) (w : SomeBit)
    (rest : List UInt32) (n : ℤ) :
    msbWords (zeros ++ w.val :: rest) n = msbBits w (n - 32 * zeros.length) := by
  induction zeros generalizing n with
  | nil => simp [msbWords, w.property]
  | cons z zeros ih =>
      have hz : z = 0 := hzeros z List.mem_cons_self
      rw [List.cons_append, msbWords, dif_pos hz,
        ih fun y hy => hzeros y (List.mem_cons_of_mem z hy)]
      congr 1
      rw [List.length_cons]
      push_cast
      ring

theorem log2_words (low : List UInt32) (w : SomeBit) {zeros : List UInt32}
    (hzeros : ∀ z ∈ zeros, z = 0) :
    (value (low ++ w.val :: zeros)).log2 = 32 * low.length + w.val.toNat.log2 := by
  have hpos := toNat_pos w.property
  set k := 32 * low.length with hk
  have hvalue : value (low ++ w.val :: zeros) = value low + 2 ^ k * w.val.toNat := by
    rw [value_append, value_cons, value_eq_zero_iff.mpr hzeros, Nat.mul_zero, Nat.add_zero]
  have hle : 2 ^ k ≤ value low + 2 ^ k * w.val.toNat :=
    (Nat.le_mul_of_pos_right _ hpos).trans (Nat.le_add_left _ _)
  have hdiv : (value low + 2 ^ k * w.val.toNat) / 2 ^ k = w.val.toNat := by
    rw [Nat.add_mul_div_left _ _ (Nat.two_pow_pos k), Nat.div_eq_of_lt (value_lt low), zero_add]
  have hlog := log2_div_two_pow hle
  have hk_le : k ≤ (value low + 2 ^ k * w.val.toNat).log2 :=
    (Nat.le_log2 (by have := Nat.two_pow_pos k; omega)).mpr hle
  rw [hdiv] at hlog
  rw [hvalue]
  omega

/-! ### Bit positions -/

/-- What `MSB`, `LSB` and `BitSize` make of a stored number. -/
structure BitPositions (ref : Number → ℕ) (ipp : Ipp) (x : Number) : Prop where
  /-- `MSB` returns the one `k` with `2 ^ k ≤ |x| < 2 ^ (k + 1)` -/
  msb : ∃ k : ℕ, msb ref ipp x = .ok (k : ℤ) ∧
    ∀ j : ℕ, 2 ^ j ≤ |x.toInt| ∧ |x.toInt| < 2 ^ (j + 1) ↔ j = k
  /-- its scan ends inside the words, at the last that is not zero -/
  msbEnds : ∃ (low zeros : List UInt32) (w : SomeBit),
    num2vec ref x = .ok (low ++ w.val :: zeros) ∧ (∀ z ∈ zeros, z = 0) ∧
      Stored.msb ref ipp x = .ok (msbBits w (32 * low.length + 31))
  /-- `LSB` returns the largest `k` such that `2 ^ k` divides `x` -/
  lsb : ∃ k : ℕ, lsb ref ipp x = .ok (k : ℤ) ∧ IsGreatest {j : ℕ | 2 ^ j ∣ x.toInt} k
  /-- its scan ends inside the words, at the first that is not zero -/
  lsbEnds : ∃ (zeros high : List UInt32) (w : SomeBit),
    num2vec ref x = .ok (zeros ++ w.val :: high) ∧ (∀ z ∈ zeros, z = 0) ∧
      Stored.lsb ref ipp x = .ok (lsbBits w (32 * zeros.length))
  bitSize : ∃ k : ℤ, Stored.msb ref ipp x = .ok k ∧ bitSize ref ipp x = .ok (k + 1)

section
variable {ipp : Ipp} (h : ipp.Lawful) {ref : Number → ℕ} (href : Reports ref)
include h href

section
variable {x : Number} (hx : x.toInt ≠ 0)
include hx

omit h href in
theorem magnitude_ne_zero : x.magnitude ≠ 0 := by
  rw [← natAbs_toInt]
  exact Int.natAbs_ne_zero.mpr hx

/-- The scan of `MSB`, and where it ends. -/
theorem msb_scan : ∃ (low zeros : List UInt32) (w : SomeBit),
    num2vec ref x = .ok (low ++ w.val :: zeros) ∧ (∀ z ∈ zeros, z = 0) ∧
      msb ref ipp x = .ok (msbBits w (32 * low.length + 31)) ∧
        msbBits w (32 * low.length + 31) = x.magnitude.log2 := by
  obtain ⟨v, hv, hvalue⟩ := num2vec_ok href x
  have hne : value v ≠ 0 := hvalue ▸ magnitude_ne_zero hx
  obtain ⟨low, zeros, w, rfl, hzeros⟩ := exists_last hne
  refine ⟨low, zeros, w, hv, hzeros, ?_, ?_⟩
  · have hrev : (low ++ w.val :: zeros).reverse = zeros.reverse ++ w.val :: low.reverse := by
      simp
    rw [msb, eq_zero h, if_neg (by simpa using hx), hv, Result.bind_ok, hrev,
      msbWords_append fun z hz => hzeros z (List.mem_reverse.mp hz)]
    congr 2
    rw [List.length_reverse, List.length_append, List.length_cons]
    push_cast
    ring
  · rw [msbBits_eq_log2, ← hvalue, log2_words low w hzeros]
    push_cast
    ring

/-- The scan of `LSB`, and where it ends. -/
theorem lsb_scan : ∃ (zeros high : List UInt32) (w : SomeBit),
    num2vec ref x = .ok (zeros ++ w.val :: high) ∧ (∀ z ∈ zeros, z = 0) ∧
      lsb ref ipp x = .ok (lsbBits w (32 * zeros.length)) ∧
        lsbBits w (32 * zeros.length) = padicValNat 2 x.magnitude := by
  obtain ⟨v, hv, hvalue⟩ := num2vec_ok href x
  have hne : value v ≠ 0 := hvalue ▸ magnitude_ne_zero hx
  obtain ⟨zeros, high, w, rfl, hzeros⟩ := exists_first hne
  refine ⟨zeros, high, w, hv, hzeros, ?_, ?_⟩
  · rw [lsb, eq_zero h, if_neg (by simpa using hx), hv, Result.bind_ok, lsbWords_append hzeros,
      zero_add]
    rfl
  · rw [lsbBits_eq, ← hvalue, padicValNat_words hzeros]
    push_cast
    ring

theorem msb_ok : msb ref ipp x = .ok (x.magnitude.log2 : ℤ) := by
  obtain ⟨low, zeros, w, -, -, hmsb, hlog⟩ := msb_scan h href hx
  rw [hmsb, hlog]

theorem bitSize_ok : bitSize ref ipp x = .ok (bitLen x.toInt : ℤ) := by
  rw [bitSize, msb_ok h href hx, Result.bind_ok, bitLen, natAbs_toInt]
  rfl

/-- The scan of the storage finds what a scan of the words of the value finds. -/
theorem msb_eq_msb : msb ref ipp x = .ok (BigNumber.msb ipp x.toInt) := by
  rw [msb_ok h href hx, msb_eq h hx, natAbs_toInt]

theorem positions : BitPositions ref ipp x where
  msb := by
    refine ⟨_, msb_ok h href hx, fun j => ?_⟩
    rw [Int.abs_eq_natAbs, natAbs_toInt]
    have hiff := Nat.log2_eq_iff (k := j) (magnitude_ne_zero hx)
    rw [eq_comm, hiff]
    exact_mod_cast Iff.rfl
  msbEnds := by
    obtain ⟨low, zeros, w, hv, hzeros, hmsb, -⟩ := msb_scan h href hx
    exact ⟨low, zeros, w, hv, hzeros, hmsb⟩
  lsb := by
    obtain ⟨zeros, high, w, -, -, hlsb, hval⟩ := lsb_scan h href hx
    refine ⟨_, hlsb.trans (congrArg _ hval), ?_⟩
    have hdvd : ∀ j : ℕ, 2 ^ j ∣ x.toInt ↔ j ≤ padicValNat 2 x.magnitude := by
      intro j
      rw [← padicValNat_dvd_iff_le (magnitude_ne_zero hx), ← natAbs_toInt, ← Int.natCast_dvd]
      exact_mod_cast Iff.rfl
    exact ⟨(hdvd _).mpr le_rfl, fun j hj => (hdvd j).mp hj⟩
  lsbEnds := by
    obtain ⟨zeros, high, w, hv, hzeros, hlsb, -⟩ := lsb_scan h href hx
    exact ⟨zeros, high, w, hv, hzeros, hlsb⟩
  bitSize := ⟨_, msb_ok h href hx, by rw [bitSize, msb_ok h href hx, Result.bind_ok]; rfl⟩

end

/-- The destination has room for the product. -/
theorem mul_exact (x y : Number) : mul ref ipp x y = x.toInt * y.toInt := by
  refine h.mul_exact _ _ _ (fits_of_lt_two_pow ?_)
  rw [Int.natAbs_mul, pow_add]
  refine Nat.mul_lt_mul'' (natAbs_lt_two_pow_bitLen x.toInt) ?_
  rw [natAbs_toInt]
  exact href.covers y

end

/-- A product is as long as its factors together, or one bit less. -/
theorem bitLen_mul {a b : ℤ} (ha : a ≠ 0) (hb : b ≠ 0) :
    bitLen (a * b) = bitLen a + bitLen b ∨ bitLen (a * b) + 1 = bitLen a + bitLen b := by
  have hane : a.natAbs ≠ 0 := Int.natAbs_ne_zero.mpr ha
  have hbne : b.natAbs ≠ 0 := Int.natAbs_ne_zero.mpr hb
  have hne : a.natAbs * b.natAbs ≠ 0 := Nat.mul_ne_zero hane hbne
  have hlow : a.natAbs.log2 + b.natAbs.log2 ≤ (a.natAbs * b.natAbs).log2 := by
    rw [Nat.le_log2 hne, pow_add]
    exact Nat.mul_le_mul (Nat.log2_self_le hane) (Nat.log2_self_le hbne)
  have hhigh : (a.natAbs * b.natAbs).log2 < a.natAbs.log2 + 1 + (b.natAbs.log2 + 1) := by
    rw [Nat.log2_lt hne, pow_add]
    exact Nat.mul_lt_mul'' Nat.lt_log2_self Nat.lt_log2_self
  unfold bitLen
  rw [Int.natAbs_mul]
  omega

/--
**`MSB`, `LSB` and `BitSize` find the bits of a number however it is stored.**

For every number that is not zero, of any sign and length, with any digits of zeros above
it, and every length that covers the number and is stored: both scans end inside the words
`num2vec` has copied, `MSB` at the highest bit and `LSB` at the lowest.  So the size of a
product is that of its factors together, or one less, whatever storage holds the product.
-/
theorem bit_positions {ipp : Ipp} (h : ipp.Lawful) {ref : Number → ℕ} (href : Reports ref)
    {x : Number} (hx : x.toInt ≠ 0) :
    BitPositions ref ipp x ∧
      ∀ y z : Number, y.toInt ≠ 0 → z.toInt = mul ref ipp x y →
        ∃ a b c : ℤ, bitSize ref ipp x = .ok a ∧ bitSize ref ipp y = .ok b ∧
          bitSize ref ipp z = .ok c ∧ (c = a + b ∨ c = a + b - 1) := by
  refine ⟨positions h href hx, fun y z hy hz => ?_⟩
  rw [mul_exact h href] at hz
  have hzne : z.toInt ≠ 0 := hz ▸ mul_ne_zero hx hy
  refine ⟨_, _, _, bitSize_ok h href hx, bitSize_ok h href hy, bitSize_ok h href hzne, ?_⟩
  rw [hz]
  rcases bitLen_mul hx hy with hsum | hless
  · left
    exact_mod_cast hsum
  · right
    omega

/-- The length from the top digit of the storage, zero or not; zero in one digit has one bit. -/
def lengthFromTop (bn : Number) : ℕ :=
  match bn.digits.reverse with
  | [] => 0
  | d :: rest => max 1 (64 * rest.length + d.size)

theorem reports_lengthFromTop : Reports lengthFromTop where
  covers bn := by
    unfold lengthFromTop
    cases hrev : bn.digits.reverse with
    | nil =>
        rw [List.reverse_eq_nil_iff] at hrev
        simp [Number.magnitude, hrev]
    | cons d rest =>
        have hdigits : bn.digits = rest.reverse ++ [d] := by
          rw [← List.reverse_reverse bn.digits, hrev, List.reverse_cons]
        have hlow : Nat.ofDigits (2 ^ 64) rest.reverse < 2 ^ (64 * rest.length) := by
          have hlt := Nat.ofDigits_lt_base_pow_length (b := 2 ^ 64) (l := rest.reverse) (by decide)
            fun y hy => bn.lt y (hdigits ▸ List.mem_append_left _ hy)
          rwa [List.length_reverse, ← pow_mul] at hlt
        have htop : d + 1 ≤ 2 ^ d.size := Nat.lt_size_self d
        calc bn.magnitude
            = Nat.ofDigits (2 ^ 64) rest.reverse + 2 ^ (64 * rest.length) * d := by
              rw [Number.magnitude, hdigits, Nat.ofDigits_append, Nat.ofDigits_singleton,
                List.length_reverse, ← pow_mul]
          _ < 2 ^ (64 * rest.length) * (d + 1) := by
              rw [Nat.mul_succ, Nat.add_comm]
              exact Nat.add_lt_add_left hlow _
          _ ≤ 2 ^ (64 * rest.length) * 2 ^ d.size := Nat.mul_le_mul_left _ htop
          _ = 2 ^ (64 * rest.length + d.size) := (pow_add _ _ _).symm
          _ ≤ 2 ^ max 1 (64 * rest.length + d.size) :=
              Nat.pow_le_pow_right Nat.two_pos (le_max_right _ _)
  stored bn := by
    unfold lengthFromTop
    cases hrev : bn.digits.reverse with
    | nil => exact Nat.zero_le _
    | cons d rest =>
        have hlen := congrArg List.length hrev
        have hsize : d.size ≤ 64 := Nat.size_le.mpr (bn.lt d (by
          rw [← List.mem_reverse, hrev]
          exact List.mem_cons_self))
        rw [List.length_reverse, List.length_cons] at hlen
        show max 1 (64 * rest.length + d.size) ≤ 64 * bn.digits.length
        omega

/-- `-40` with two digits of zeros above it, times three, with one. -/
theorem bit_positions_minus_forty :
    BitPositions lengthFromTop Ipp.reference ⟨true, [40, 0, 0], by decide⟩ ∧
      ∃ a b c : ℤ, bitSize lengthFromTop Ipp.reference ⟨true, [40, 0, 0], by decide⟩ = .ok a ∧
        bitSize lengthFromTop Ipp.reference ⟨false, [3], by decide⟩ = .ok b ∧
          bitSize lengthFromTop Ipp.reference ⟨true, [120, 0], by decide⟩ = .ok c ∧
            (c = a + b ∨ c = a + b - 1) := by
  have hboth := bit_positions Ipp.reference_lawful reports_lengthFromTop
    (x := ⟨true, [40, 0, 0], by decide⟩) (by decide)
  exact ⟨hboth.1, hboth.2 ⟨false, [3], by decide⟩ ⟨true, [120, 0], by decide⟩ (by decide)
    (by decide)⟩

end Ipcl.BigNumber.Stored
