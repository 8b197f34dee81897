/-
The three engines behind `modExp`.

One number at a time goes through Montgomery arithmetic, up to eight at a time
through a multi-buffer function, and everything through the QAT device when that is
built in.  None of the engines is part of the repository: each is a parameter, a
structure of the calls made, and its `Lawful` says that it computes the power where
its operands are what its documentation asks for.

What is modelled is the handling of the operands around the calls: the statuses
that are checked, the eight lanes that are filled from the words of the numbers, and
the octet strings the device reads and writes.
-/
import Ipcl.BigNumber.Bin
import Ipcl.ModExp
import Ipcl.Types

namespace Ipcl

open BigNumber

/-- `IPCL_CRYPTO_MB_SIZE` -/
def cryptoMbSize : Nat := 8

/-! ### Montgomery arithmetic -/

/-- The Montgomery calls, for a state set to a modulus.  Status zero is success. -/
structure Mont where
  /-- `ippsMontGetSize`, for a length in words -/
  getSize : Nat → Int
  /-- `ippsMontInit` -/
  init : Nat → Int
  /-- `ippsMontSet` -/
  set : (mod : Nat) → Int
  /-- `ippsMontForm` -/
  form : (mod : Nat) → Int → Int × Int
  /-- `ippsMontExp` -/
  exp : (mod : Nat) → Int → Int → Int × Int
  /-- `ippsMontMul` -/
  mul : (mod : Nat) → Int → Int → Int × Int

/-- Numbers are kept multiplied by a radix that depends on the modulus. -/
structure Mont.Lawful (mont : Mont) (radix : Nat → Int) : Prop where
  getSize_ok : ∀ words, 0 < words → mont.getSize words = 0
  init_ok : ∀ words, 0 < words → mont.init words = 0
  set_ok : ∀ m, Odd m → mont.set m = 0
  form_ok : ∀ (m : Nat) (b : Int), Odd m → 0 ≤ b → b < m →
    mont.form m b = (0, b * radix m % m)
  exp_ok : ∀ (m : Nat) (b e : Int), Odd m → 0 ≤ b → b < m → 0 ≤ e →
    mont.exp m (b * radix m % m) e = (0, powMod b e m * radix m % m)
  mul_ok : ∀ (m : Nat) (x : Int), Odd m → 0 ≤ x → x < m →
    mont.mul m (x * radix m % m) 1 = (0, x)

/-- The arguments it refuses: a number that is not below the modulus, and a negative
exponent. -/
structure Mont.Refuses (mont : Mont) : Prop where
  form_range : ∀ (m : Nat) (b : Int), m ≤ b → (mont.form m b).1 ≠ 0
  exp_sign : ∀ (m : Nat) (b e : Int), e < 0 → (mont.exp m b e).1 ≠ 0

/-- `ippSBModExp` -/
def ippSBModExp (mont : Mont) (base exp mod : Int) : Result Int := do
  let modWords := bitsizeWord (bitLen mod)
  errorCheck (mont.getSize modWords = 0)
    "ippMontExp: get the size of IppsMontState context error."
  errorCheck (mont.init modWords = 0) "ippMontExp: init Mont context error."
  errorCheck (mont.set mod.natAbs = 0) "ippMontExp: set Mont input error."
  let (stat, bform) := mont.form mod.natAbs base
  errorCheck (stat = 0) "ippMontExp: convert big number into Mont form error."
  let (stat, res) := mont.exp mod.natAbs bform exp
  errorCheck (stat = 0) ("ippsMontExp: error code = " ++ toString stat)
  let (stat, res) := mont.mul mod.natAbs res 1
  errorCheck (stat = 0) ("ippsMontMul: error code = " ++ toString stat)
  pure res

/-- One number is raised by its Montgomery form. -/
theorem ippSBModExp_eq {mont : Mont} {radix : Nat → Int} (h : mont.Lawful radix) {b e m : Int}
    (hadm : Admissible b e m) : ippSBModExp mont b e m = .ok (powMod b e m) := by
  obtain ⟨k, rfl⟩ : ∃ k : Nat, m = k := ⟨m.toNat, (Int.toNat_of_nonneg hadm.mod_pos.le).symm⟩
  have hodd : Odd k := by exact_mod_cast hadm.odd
  have hwords : 0 < bitsizeWord (bitLen (k : Int)) := by
    have := bitLen_pos (k : Int)
    unfold bitsizeWord
    omega
  have h0 := powMod_nonneg (b := b) (e := e) hadm.mod_pos
  have h1 := powMod_lt (b := b) (e := e) hadm.mod_pos
  simp only [ippSBModExp, h.getSize_ok _ hwords, h.init_ok _ hwords, Int.natAbs_natCast,
    h.set_ok k hodd, h.form_ok k b hodd hadm.base_nonneg hadm.base_lt,
    h.exp_ok k b e hodd hadm.base_nonneg hadm.base_lt hadm.exp_nonneg,
    h.mul_ok k _ hodd h0 h1, decide_true, errorCheck_true, Result.bind_ok]
  rfl

/-! ### The multi-buffer function -/

/-- `mbx_exp_mb8` as one lane sees it: the words of the base, the exponent and the
modulus, the bit sizes, and in return the status of the lane and the words of the
result. -/
structure Mbx where
  lane : (base exp : List Nat) → (expBits : Nat) → (mod : List Nat) → (modBits : Nat) →
    Int × List Nat

/-- A lane computes the power of operands that are filled up to the common sizes. -/
structure Mbx.Lawful (mbx : Mbx) : Prop where
  lane_ok : ∀ (b e m : Nat) (expBits modBits : Nat), Odd m → b < m → m < 2 ^ modBits →
    e < 2 ^ expBits → expBits ≤ modBits →
    mbx.lane (Digits.fixed (2 ^ 32) (2 * bitsizeDword modBits) b)
        (Digits.fixed (2 ^ 32) (2 * bitsizeDword expBits) e) expBits
        (Digits.fixed (2 ^ 32) (2 * bitsizeDword modBits) m) modBits
      = (0, Digits.fixed (2 ^ 32) (2 * bitsizeDword modBits) (b ^ e % m))

/-- A lane that reports success returns the power, whatever the sizes it was given. -/
structure Mbx.Sound (mbx : Mbx) : Prop where
  lane_exact : ∀ (b e m : Nat) (expBits modBits : Nat), Odd m → b < m → m < 2 ^ modBits →
    e < 2 ^ expBits →
    (mbx.lane (Digits.fixed (2 ^ 32) (2 * bitsizeDword modBits) b)
        (Digits.fixed (2 ^ 32) (2 * bitsizeDword expBits) e) expBits
        (Digits.fixed (2 ^ 32) (2 * bitsizeDword modBits) m) modBits).1 = 0 →
    (mbx.lane (Digits.fixed (2 ^ 32) (2 * bitsizeDword modBits) b)
        (Digits.fixed (2 ^ 32) (2 * bitsizeDword expBits) e) expBits
        (Digits.fixed (2 ^ 32) (2 * bitsizeDword modBits) m) modBits).2
      = Digits.fixed (2 ^ 32) (2 * bitsizeDword modBits) (b ^ e % m)

/-- `memcpy` and `std::copy`, to an offset of a buffer that has the room. -/
def copyTo {α : Type} (buff : List α) (off : Nat) (src : List α) : Result (List α) :=
  if off + src.length ≤ buff.length then
    .ok (buff.take off ++ src ++ buff.drop (off + src.length))
  else .error (.undefined "copy past the end")

/-- The `n` elements from an offset on. -/
def slice {α : Type} (buff : List α) (off n : Nat) : Result (List α) :=
  if off + n ≤ buff.length then .ok ((buff.drop off).take n)
  else .error (.undefined "read past the end")

/-- The loop that fills the lanes of a buffer. -/
def copyLanes (laneWords : Nat) (xs : List Int) : Result (List Nat) :=
  (List.range xs.length).foldlM (fun buff i => do
      let x ← elemAt xs i
      copyTo buff (i * laneWords) (num2vec x))
    (List.replicate (cryptoMbSize * laneWords) 0)

/-- The bit sizes of the eight lanes, zero for a lane that is not used. -/
def laneBits (xs : List Int) : List Nat :=
  xs.map bitLen ++ List.replicate (cryptoMbSize - xs.length) 0

/-- `std::max_element` of bit sizes -/
def maxBits (bits : List Nat) : Nat := bits.foldl max 0

/-- Lane `i` of a call.  Base and exponent are read from the buffers, the modulus where
it is stored. -/
def runLane (mbx : Mbx) (baseBuff expBuff : List Nat) (mod : List Int) (expBits modBits : Nat)
    (i : Nat) : Result (Int × List Nat) := do
  let laneWords := 2 * bitsizeDword modBits
  let b ← slice baseBuff (i * laneWords) laneWords
  let e ← slice expBuff (i * laneWords) (2 * bitsizeDword expBits)
  let m ← elemAt mod i
  let ms ← slice (Digits.fixed (2 ^ 32) (2 * roomOf (bitsizeWord (bitLen m))) m.natAbs) 0
    laneWords
  pure (mbx.lane b e expBits ms modBits)

/-- `ippMBModExp` -/
def ippMBModExp (mbx : Mbx) (base exp mod : List Int) : Result (List Int) := do
  errorCheck ((base.length == exp.length) && (exp.length == mod.length) &&
    (base.length ≤ cryptoMbSize)) "ippMBModExp: input vector size error"
  let modBits := maxBits (laneBits mod)
  let _longestMod ← elemAt mod ((laneBits mod).findIdx (· == modBits))
  let expBits := maxBits (laneBits exp)
  let baseBuff ← copyLanes (2 * bitsizeDword modBits) base
  let expBuff ← copyLanes (2 * bitsizeDword modBits) exp
  let outs ← (List.range base.length).mapM (runLane mbx baseBuff expBuff mod expBits modBits)
  let _ ← outs.mapM fun out => errorCheck (out.1 = 0)
    ("ippMultiBuffExp: error multi buffered exp modules, error code = " ++ toString out.1)
  pure (outs.map fun out => ((ofWords (out.2.take (bitsizeWord modBits)) : Nat) : Int))

/-! ### The QAT device -/

/-- One request to the device: three octet strings and their length in bits. -/
structure Qat where
  exp : (base exp mod : List Nat) → (nbits : Nat) → List Nat

/-- Every request succeeds and returns the power. -/
structure Qat.Lawful (qat : Qat) : Prop where
  exp_ok : ∀ (len b e m : Nat), Odd m → b < m → m < 256 ^ len → e < 256 ^ len →
    qat.exp (octets len b) (octets len e) (octets len m) (8 * len) = octets len (b ^ e % m)

/-! ### Reference engines -/

/-- The radix of Montgomery form: the power of two above the words of the modulus. -/
def montRadix (m : Nat) : Int := 2 ^ (32 * bitsizeWord (bitLen m))

/-- Montgomery arithmetic by the inverse of the radix. -/
def Mont.reference : Mont where
  getSize words := if 0 < words then 0 else -6
  init words := if 0 < words then 0 else -6
  set m := if m % 2 = 1 then 0 else -1000
  form m b := if 0 ≤ b ∧ b < m then (0, b * montRadix m % m) else (-11, 0)
  exp m b e :=
    if 0 ≤ e then (0, powMod (b * Int.gcdA (montRadix m) m % m) e m * montRadix m % m)
    else (-5, 0)
  mul m x y := (0, x * y * Int.gcdA (montRadix m) m % m)

theorem montRadix_coprime {m : Nat} (hm : Odd m) : Int.gcd (montRadix m) m = 1 := by
  have hcop : Nat.Coprime (2 ^ (32 * bitsizeWord (bitLen m))) m :=
    Nat.Coprime.pow_left _ (Nat.coprime_two_left.mpr hm)
  have hcast : montRadix m = ((2 ^ (32 * bitsizeWord (bitLen m)) : Nat) : Int) := by
    simp [montRadix]
  rw [hcast, Int.gcd_natCast_natCast]
  exact hcop

/-- Leaving Montgomery form undoes entering it. -/
theorem mont_cancel {m : Nat} (hm : Odd m) {x : Int} (h0 : 0 ≤ x) (h1 : x < m) :
    x * montRadix m % m * Int.gcdA (montRadix m) m % m = x := by
  have hinv : montRadix m * Int.gcdA (montRadix m) m ≡ 1 [ZMOD m] :=
    ((Int.mod_modEq _ _).symm.mul_left _).trans (Ipp.gcdA_inverse (montRadix_coprime hm))
  have hx : x * montRadix m % m * Int.gcdA (montRadix m) m ≡ x [ZMOD m] := calc
    _ ≡ x * montRadix m * Int.gcdA (montRadix m) m [ZMOD m] := (Int.mod_modEq _ _).mul_right _
    _ = x * (montRadix m * Int.gcdA (montRadix m) m) := by ring
    _ ≡ x * 1 [ZMOD m] := hinv.mul_left x
    _ = x := mul_one x
  have hmod : _ % (m : Int) = x % m := hx
  rw [hmod, Int.emod_eq_of_lt h0 h1]

theorem Mont.reference_lawful : Mont.reference.Lawful montRadix where
  getSize_ok _ hw := if_pos hw
  init_ok _ hw := if_pos hw
  set_ok _ hm := if_pos (Nat.odd_iff.mp hm)
  form_ok _ _ _ h0 h1 := if_pos ⟨h0, h1⟩
  exp_ok m b e hm h0 h1 he := by
    show (if 0 ≤ e then ((0 : Int), powMod (b * montRadix m % m * Int.gcdA (montRadix m) m % m) e m
      * montRadix m % m) else (-5, 0)) = _
    rw [if_pos he, mont_cancel hm h0 h1]
  mul_ok m x hm h0 h1 := by
    show ((0 : Int), x * montRadix m % m * 1 * Int.gcdA (montRadix m) m % m) = _
    rw [mul_one, mont_cancel hm h0 h1]

theorem Mont.reference_refuses : Mont.reference.Refuses where
  form_range m b hb := by
    have hnot : ¬ (0 ≤ b ∧ b < m) := fun hc => absurd hc.2 hb.not_gt
    show (if 0 ≤ b ∧ b < m then ((0 : Int), b * montRadix m % m) else (-11, 0)).1 ≠ 0
    rw [if_neg hnot]
    decide
  exp_sign m b e he := by
    show (if 0 ≤ e then ((0 : Int), _) else (-5, 0)).1 ≠ 0
    rw [if_neg he.not_ge]
    decide

/-- A lane that computes on the values of its words. -/
def Mbx.reference : Mbx where
  lane base exp _ mod modBits :=
    (if ofWords mod % 2 = 1 then 0 else 1,
      Digits.fixed (2 ^ 32) (2 * bitsizeDword modBits) (ofWords base ^ ofWords exp % ofWords mod))

theorem ofWords_fixed_dwords {v n : Nat} (hv : v < 2 ^ n) :
    ofWords (Digits.fixed (2 ^ 32) (2 * bitsizeDword n) v) = v := by
  refine Digits.ofDigits_fixed_of_lt (hv.trans_le ?_)
  rw [← pow_mul]
  refine Nat.pow_le_pow_right Nat.two_pos ?_
  unfold bitsizeDword
  omega

theorem Mbx.reference_lane {b e m expBits modBits : Nat} (hodd : Odd m) (hb : b < m)
    (hm : m < 2 ^ modBits) (he : e < 2 ^ expBits) :
    Mbx.reference.lane (Digits.fixed (2 ^ 32) (2 * bitsizeDword modBits) b)
        (Digits.fixed (2 ^ 32) (2 * bitsizeDword expBits) e) expBits
        (Digits.fixed (2 ^ 32) (2 * bitsizeDword modBits) m) modBits
      = (0, Digits.fixed (2 ^ 32) (2 * bitsizeDword modBits) (b ^ e % m)) := by
  show (if ofWords _ % 2 = 1 then (0 : Int) else 1, _) = _
  rw [ofWords_fixed_dwords (hb.trans hm), ofWords_fixed_dwords he, ofWords_fixed_dwords hm,
    if_pos (Nat.odd_iff.mp hodd)]

theorem Mbx.reference_lawful : Mbx.reference.Lawful where
  lane_ok _ _ _ _ _ hodd hb hm he _ := Mbx.reference_lane hodd hb hm he

theorem Mbx.reference_sound : Mbx.reference.Sound where
  lane_exact _ _ _ _ _ hodd hb hm he _ := by rw [Mbx.reference_lane hodd hb hm he]

/-- A device that computes on the values of the octet strings. -/
def Qat.reference : Qat where
  exp base exp mod nbits :=
    octets (nbits / 8) (Nat.ofDigits 256 base.reverse ^ Nat.ofDigits 256 exp.reverse
      % Nat.ofDigits 256 mod.reverse)

theorem Qat.reference_lawful : Qat.reference.Lawful where
  exp_ok len b e m _ hb hm he := by
    have hval : ∀ v, v < 256 ^ len → Nat.ofDigits 256 (octets len v).reverse = v := by
      intro v hv
      rw [octets, List.reverse_reverse, Digits.ofDigits_fixed_of_lt hv]
    show octets (8 * len / 8) _ = _
    rw [hval b (hb.trans hm), hval e he, hval m hm, Nat.mul_div_cancel_left len (by decide)]

end Ipcl
