/-
The conversion helpers there and back.

The copying loop takes its bound from the number of bits alone.  Encoding reads that many
bytes of a storage that may be shorter, and decoding writes them into a storage that has
been sized by the value of the bytes in the wrong order.  So a number is encoded exactly
when its own digits reach up to the number of bits, whatever its value, and decoded
exactly when its string keeps all its digits in the wrong order.
-/
import Ipcl.HeQat.Misc

namespace Ipcl.HeQat

open BigNumber

/-! ### The copying loop -/

section
variable {src dst : List ℕ} {len : ℕ}

theorem reverseByte_ok {i : ℕ} {out : List ℕ} (h : reverseByte src len dst i = .ok out) :
    len - 1 - i < src.length ∧ i < dst.length ∧ out.length = dst.length := by
  unfold reverseByte at h
  cases hget : src[len - 1 - i]? with
  | none =>
      rw [hget] at h
      cases h
  | some b =>
      simp only [hget] at h
      by_cases hi : i < dst.length
      · rw [if_pos hi] at h
        cases h
        obtain ⟨hlt, -⟩ := List.getElem?_eq_some_iff.mp hget
        exact ⟨hlt, hi, List.length_set⟩
      · rw [if_neg hi] at h
        cases h

/-- Rounds that have come to their end had room for every byte. -/
theorem reverseRounds_ok : ∀ {n : ℕ} {out : List ℕ},
    (List.range n).foldlM (reverseByte src len) dst = .ok out →
      n ≤ dst.length ∧ out.length = dst.length ∧ (0 < n → len - 1 < src.length) := by
  intro n
  induction n with
  | zero =>
      intro out h
      cases h
      exact ⟨Nat.zero_le _, rfl, fun hlt => absurd hlt (lt_irrefl 0)⟩
  | succ n ih =>
      intro out h
      rw [List.range_succ, List.foldlM_append] at h
      obtain ⟨mid, hmid, hlast⟩ := Result.of_bind_ok h
      rw [List.foldlM_cons] at hlast
      obtain ⟨out', hout', hnil⟩ := Result.of_bind_ok hlast
      cases hnil
      obtain ⟨hle, hlen, hread⟩ := ih hmid
      obtain ⟨hsrc, hdst, hlen'⟩ := reverseByte_ok hout'
      refine ⟨by omega, by omega, fun _ => ?_⟩
      rcases Nat.eq_zero_or_pos n with rfl | hpos
      · exact hsrc
      · exact hread hpos

/-- The loop comes to its end only inside both sides. -/
theorem reverseCopy_ok {out : List ℕ} (hlen : 0 < len) (h : reverseCopy src dst len = .ok out) :
    len ≤ src.length ∧ len ≤ dst.length := by
  obtain ⟨hdst, -, hsrc⟩ := reverseRounds_ok h
  have := hsrc hlen
  exact ⟨by omega, hdst⟩

/-- Inside both sides the loop reverses the bytes and leaves those above alone. -/
theorem reverseCopy_eq (hsrc : len ≤ src.length) (hdst : len ≤ dst.length) :
    reverseCopy src dst len = .ok ((src.take len).reverse ++ dst.drop len) := by
  set ys := (src.take len).reverse with hys
  have hylen : ys.length = len := by simp [hys, hsrc]
  have hcopy := Vec.foldlM_range_ok (fun i => ys.take i ++ dst.drop i) len
    (f := reverseByte src len) (by
      intro i hi
      have hyi : src[len - 1 - i]? = some ys[i] := by
        simp only [hys, List.getElem_reverse, List.length_take, List.getElem_take]
        rw [List.getElem?_eq_getElem (by omega)]
        simp [hsrc]
      have hlt : i < (ys.take i ++ dst.drop i).length := by
        rw [List.length_append, List.length_take, List.length_drop]
        omega
      simp only [reverseByte, hyi, if_pos hlt]
      rw [List.set_append_right _ _ (by simp), List.length_take_of_le (by omega), Nat.sub_self,
        List.drop_eq_getElem_cons (by omega), List.set_cons_zero,
        List.take_succ_eq_append_getElem (by omega), List.append_assoc, List.singleton_append])
  simpa [reverseCopy, ← hylen] using hcopy

end

/-! ### Sizes -/

theorem byteLen_words (w : ℕ) : byteLen (32 * w : ℕ) = 4 * w := by
  unfold byteLen
  rw [Int.shiftRight_eq_div_pow]
  omega

theorem bitsizeWord_words (w : ℕ) : bitsizeWord (32 * w) = w := by
  unfold bitsizeWord
  omega

namespace Number

@[simp] theorem digits_create (neg : Bool) (length v : ℕ) :
    (create neg length v).digits.length = roomOf length := by
  simp [create]

theorem magnitude_create {neg : Bool} {length v : ℕ} (hv : v < 2 ^ (64 * roomOf length)) :
    (create neg length v).magnitude = v := by
  rw [magnitude, create, Digits.ofDigits_fixed_of_lt]
  rwa [← pow_mul]

@[simp] theorem length_bytes (bn : Number) : bn.bytes.length = 8 * bn.digits.length := by
  simp [bytes]

theorem assign_of_magnitude (bn : Number) :
    bn.assign.neg = bn.neg ∧ bn.assign.magnitude = bn.magnitude ∧
      bn.assign.digits.length = roomOf (bitsizeWord (bitLen bn.magnitude)) := by
  refine ⟨rfl, magnitude_create ?_, digits_create _ _ _⟩
  exact fits_of_lt_two_pow (natAbs_lt_two_pow_bitLen (bn.magnitude : ℤ))

theorem magnitude_withBytes {bn : Number} {data : List ℕ}
    (h : Nat.ofDigits 256 data < 2 ^ (64 * bn.digits.length)) :
    (bn.withBytes data).magnitude = Nat.ofDigits 256 data := by
  rw [magnitude, withBytes, Digits.ofDigits_fixed_of_lt]
  rwa [← pow_mul]

theorem toInt_of_not_neg {bn : Number} (h : bn.neg = false) : bn.toInt = bn.magnitude := by
  rw [toInt, h]
  rfl

/-- A number that is not negative is its magnitude. -/
theorem toInt_of_nonneg {bn : Number} (h : 0 ≤ bn.toInt) : bn.toInt = bn.magnitude := by
  unfold toInt at h ⊢
  split
  · rename_i hneg
    rw [if_pos hneg] at h
    omega
  · rfl

end Number

/-! ### One direction at a time -/

/-- The bytes of a number up to a number of words are the reversed octet string. -/
theorem take_bytes {v : Number} {w : ℕ} (hw : 4 * w ≤ 8 * v.digits.length) :
    (v.bytes.take (4 * w)).reverse = octets (4 * w) v.magnitude := by
  rw [Number.bytes, Digits.take_fixed hw]
  rfl

theorem bigNumberToBin_iff (v : Number) {w : ℕ} {data : List ℕ} (hw : 0 < w)
    (hdata : 4 * w ≤ data.length) :
    bigNumberToBin data (32 * w : ℕ) v
        = .ok (.success, octets (4 * w) v.magnitude ++ data.drop (4 * w)) ↔
      32 * w ≤ 64 * v.digits.length := by
  rw [bigNumberToBin, if_neg (by omega), byteLen_words]
  constructor
  · intro h
    obtain ⟨out, hout, -⟩ := Result.of_bind_ok h
    have := (reverseCopy_ok (by omega) hout).1
    rw [Number.length_bytes] at this
    omega
  · intro hdigits
    have hsrc : 4 * w ≤ v.bytes.length := by
      rw [Number.length_bytes]
      omega
    rw [reverseCopy_eq hsrc hdata, take_bytes (by omega)]
    rfl

/-- So many bytes fit into so many digits. -/
theorem pow_bytes_le {w k : ℕ} (h : 4 * w ≤ 8 * k) : (256 : ℕ) ^ (4 * w) ≤ 2 ^ (64 * k) := by
  rw [pow_octets]
  exact Nat.pow_le_pow_right Nat.two_pos (by omega)

theorem binToBigNumber_iff (bn : Number) {v : Number} {w : ℕ} (hw : 0 < w)
    (hv : v.magnitude < 256 ^ (4 * w)) :
    (∃ bn', binToBigNumber bn (octets (4 * w) v.magnitude) (32 * w : ℕ) = .ok (.success, bn') ∧
        bn'.toInt = v.magnitude) ↔
      Readable w v.magnitude := by
  set data := octets (4 * w) v.magnitude with hdata
  have hlen : data.length = 4 * w := length_octets _ _
  set wrong := Nat.ofDigits 256 data with hwrong
  have hwlt : wrong < 256 ^ (4 * w) := ofDigits_octets_lt _ _
  have hbits : (256 : ℕ) ^ (4 * w) ≤ 2 ^ (64 * roomOf w) := by
    refine pow_bytes_le ?_
    unfold roomOf
    omega
  -- the number in the wrong order, as the assignment leaves it
  set made := (Number.create false w wrong).assign with hmade
  have hcreate : (Number.create false w wrong).magnitude = wrong :=
    Number.magnitude_create (hwlt.trans_le hbits)
  obtain ⟨hneg, hmag, hroom⟩ := Number.assign_of_magnitude (Number.create false w wrong)
  rw [hcreate, ← hmade] at hmag hroom
  rw [← hmade] at hneg
  have hrun : binToBigNumber bn data (32 * w : ℕ)
      = reverseCopy data made.bytes (4 * w) >>= fun bytes =>
          pure (.success, made.withBytes bytes) := by
    rw [binToBigNumber, if_neg (by omega), byteLen_words, Int.toNat_natCast, bitsizeWord_words,
      if_neg (by omega), List.take_of_length_le hlen.le]
  rw [hrun, ← room_iff_readable hw, ← hdata, ← hwrong, ← hroom]
  constructor
  · intro hback
    obtain ⟨bn', hok, -⟩ := hback
    obtain ⟨bytes, hbytes, -⟩ := Result.of_bind_ok hok
    have := (reverseCopy_ok (by omega) hbytes).2
    rwa [Number.length_bytes] at this
  · intro hfit
    have hdst : 4 * w ≤ made.bytes.length := by rwa [Number.length_bytes]
    refine ⟨_, by rw [reverseCopy_eq hlen.ge hdst]; rfl, ?_⟩
    -- beyond the string the number in the wrong order has zero bytes only
    have hzeros : made.bytes.drop (4 * w) = List.replicate (8 * made.digits.length - 4 * w) 0 := by
      rw [Number.bytes, hmag, Digits.fixed_append_zeros (by decide) hwlt hfit,
        List.drop_append_of_le_length (by simp), List.drop_of_length_le (by simp), List.nil_append]
    have hvalue : Nat.ofDigits 256 ((data.take (4 * w)).reverse ++ made.bytes.drop (4 * w))
        = v.magnitude := by
      rw [hzeros, List.take_of_length_le hlen.le, hdata, ofDigits_octets_zeros hv]
    have hlt : v.magnitude < 2 ^ (64 * made.digits.length) := hv.trans_le (pow_bytes_le hfit)
    rw [Number.toInt_of_not_neg (show (made.withBytes _).neg = false from hneg),
      Number.magnitude_withBytes (hvalue ▸ hlt), hvalue]

/-! ### There and back -/

/-- The number is written as its octet string, from digits it has, and read back from it
into digits it has. -/
structure Converts (nbits : ℤ) (v : Number) (data : List ℕ) (bn : Number) : Prop where
  toBin : bigNumberToBin data nbits v
    = .ok (.success, octets (nbits / 8).toNat v.magnitude ++ data.drop (nbits / 8).toNat)
  fromBin : ∃ bn', binToBigNumber bn (octets (nbits / 8).toNat v.magnitude) nbits
    = .ok (.success, bn') ∧ bn'.toInt = v.toInt

/-- **The helpers are inverse and stay in bounds exactly for numbers that store as many bits
as asked for and whose lowest digit is not zero, or fits with the rest in one digit.** -/
theorem conversions_agree_iff {nbits : ℤ} (hpos : 0 < nbits) (hdvd : 32 ∣ nbits) {v : Number}
    (hnonneg : 0 ≤ v.toInt) (hv : v.toInt < 2 ^ nbits.toNat) {data : List ℕ}
    (hdata : nbits / 8 ≤ data.length) (bn : Number) :
    Converts nbits v data bn ↔
      nbits ≤ 64 * v.digits.length ∧ Readable (nbits / 32).toNat v.magnitude := by
  obtain ⟨k, rfl⟩ := hdvd
  obtain ⟨w, rfl⟩ := Int.eq_ofNat_of_zero_le (by omega : 0 ≤ k)
  have hw : 0 < w := by omega
  have hbytes : (32 * (w : ℤ) / 8).toNat = 4 * w := by omega
  have hwords : (32 * (w : ℤ) / 32).toNat = w := by omega
  have hmag := Number.toInt_of_nonneg hnonneg
  have hlt : v.magnitude < 256 ^ (4 * w) := by
    rw [hmag, show (32 * (w : ℤ)).toNat = 32 * w by omega] at hv
    rw [pow_octets, show 8 * (4 * w) = 32 * w by ring]
    exact_mod_cast hv
  have hwrite := bigNumberToBin_iff v hw (by omega : 4 * w ≤ data.length)
  have hread := binToBigNumber_iff bn hw hlt
  push_cast at hwrite hread
  rw [hwords]
  constructor
  · intro hconv
    have hto := hconv.toBin
    have hfrom := hconv.fromBin
    rw [hbytes] at hto hfrom
    rw [hmag] at hfrom
    have := hwrite.mp hto
    exact ⟨by omega, hread.mp hfrom⟩
  · intro hboth
    obtain ⟨hdigits, hreadable⟩ := hboth
    refine ⟨?_, ?_⟩
    · rw [hbytes]
      exact hwrite.mpr (by omega)
    · rw [hbytes, hmag]
      exact hread.mpr hreadable

/-- Two digits, one of them zero and above the other. -/
theorem conversions_agree_one : Converts 128 (Number.create false 4 1) (List.replicate 16 0)
    (Number.create false 1 0) :=
  (conversions_agree_iff (by decide) (by decide) (by decide) (by decide) (by decide) _).mpr
    ⟨by decide, by decide⟩

/-- The same value with the one digit it needs is read past its end. -/
theorem not_conversions_agree_one_digit :
    bigNumberToBin (List.replicate 16 0) 128 (Number.create false 1 1)
        = .error (.undefined "read past the end of a number or a string") ∧
      ¬ Converts 128 (Number.create false 1 1) (List.replicate 16 0) (Number.create false 1 0) := by
  have herr : bigNumberToBin (List.replicate 16 0) 128 (Number.create false 1 1)
      = .error (.undefined "read past the end of a number or a string") := by decide
  refine ⟨herr, fun hconv => ?_⟩
  have := hconv.toBin
  rw [herr] at this
  cases this

end Ipcl.HeQat
