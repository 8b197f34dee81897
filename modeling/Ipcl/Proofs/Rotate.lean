/-
Which rotations rotate.

The guard of `rotate` has a comparison for either end of the range.  The lower one is
made between two `int`s, the upper one converts the shift to `std::size_t`, where every
negative shift is larger than any size, so no negative shift gets through.

Sizes from `2 ^ 31` on do not fit the `int` they are cast to, and then most of the other
shifts go wrong as well: the cast size is the wrong lower end, and the number of places
to turn left is cast back to an `int`.
-/
import Ipcl.Lib.Cyclic
import Ipcl.Proofs.Homomorphic

namespace Ipcl.CipherText

/-! ### The conversions -/

theorem toSize_of_nonneg {i : ℤ} (h0 : 0 ≤ i) (h1 : i < 2 ^ 31) : (toSize i : ℤ) = i := by
  unfold toSize
  omega

theorem toSize_of_neg {i : ℤ} (h0 : i < 0) (h1 : -2 ^ 31 ≤ i) : (toSize i : ℤ) = 2 ^ 64 + i := by
  unfold toSize
  omega

/-! ### The branches -/

section
variable {m : ℕ} {s : Int32} {texts : List ℤ} {pk : PublicKey}

/-- A text of `m` elements under the key. -/
def sized (m : ℕ) (texts : List ℤ) (pk : PublicKey) : CipherText :=
  { BaseText.mk texts m with pk := some pk }

theorem rotate_overflow (hm : m ≠ 1) (hc : toInt m = -2 ^ 31) :
    rotate (sized m texts pk) s = .error (.undefined "overflow of an int") := by
  have hne : (m != 1) = true := by simpa using hm
  show (errorCheck (m != 1) _ >>= fun _ => negInt (toInt m) >>= _) = _
  rw [hne, hc]
  rfl

/-- What is left of the function for a size whose cast has a negative. -/
theorem rotate_eq (hm : m ≠ 1) (hc : toInt m ≠ -2 ^ 31) :
    rotate (sized m texts pk) s = (do
      errorCheck (decide (-toInt m ≤ s.toInt) && decide (toSize s.toInt ≤ m))
        "rotate: Cannot shift more than the test size"
      if s.toInt = 0 ∨ toSize s.toInt = m ∨ s.toInt = -toInt m then
        pure (ofVec pk texts)
      else
        let middle ← rotateMiddle m s.toInt
        let newBn ← stdRotate texts middle
        pure (ofVec pk newBn)) := by
  have hne : (m != 1) = true := by simpa using hm
  have hneg : negInt (toInt m) = .ok (-toInt m) := if_neg hc
  show (errorCheck (m != 1) _ >>= fun _ => negInt (toInt m) >>= _) = _
  rw [hne, hneg, errorCheck_true, Result.bind_ok, Result.bind_ok]
  rfl

theorem rotate_refused (hm : m ≠ 1) (hc : toInt m ≠ -2 ^ 31)
    (hguard : ¬ (-toInt m ≤ s.toInt ∧ toSize s.toInt ≤ m)) :
    rotate (sized m texts pk) s
      = .error (.runtime "rotate: Cannot shift more than the test size") := by
  have hbool : (decide (-toInt m ≤ s.toInt) && decide (toSize s.toInt ≤ m)) = false := by
    simpa using hguard
  rw [rotate_eq hm hc, hbool, errorCheck_false, Result.bind_error]

theorem rotate_same (hm : m ≠ 1) (hc : toInt m ≠ -2 ^ 31)
    (hguard : -toInt m ≤ s.toInt ∧ toSize s.toInt ≤ m)
    (hsame : s.toInt = 0 ∨ toSize s.toInt = m ∨ s.toInt = -toInt m) :
    rotate (sized m texts pk) s = .ok (ofVec pk texts) := by
  have hbool : (decide (-toInt m ≤ s.toInt) && decide (toSize s.toInt ≤ m)) = true := by
    simpa using hguard
  rw [rotate_eq hm hc, hbool, errorCheck_true, Result.bind_ok, if_pos hsame]
  rfl

/-- A shift to the right that is none of the three. -/
theorem rotate_right (hm : m ≠ 1) (hc : toInt m ≠ -2 ^ 31)
    (hguard : -toInt m ≤ s.toInt ∧ toSize s.toInt ≤ m) (hpos : 0 < s.toInt)
    (hsize : toSize s.toInt ≠ m) (hlow : s.toInt ≠ -toInt m) :
    rotate (sized m texts pk) s
      = (stdRotate texts (toInt (sizeSub m (toSize s.toInt))) >>= fun newBn =>
          .ok (ofVec pk newBn)) := by
  have hbool : (decide (-toInt m ≤ s.toInt) && decide (toSize s.toInt ≤ m)) = true := by
    simpa using hguard
  have hsame : ¬ (s.toInt = 0 ∨ toSize s.toInt = m ∨ s.toInt = -toInt m) := by
    rintro (h | h | h)
    · omega
    · exact hsize h
    · exact hlow h
  have hmiddle : rotateMiddle m s.toInt = .ok (toInt (sizeSub m (toSize s.toInt))) := if_pos hpos
  rw [rotate_eq hm hc, hbool, errorCheck_true, Result.bind_ok, if_neg hsame, hmiddle,
    Result.bind_ok]
  rfl

end

/-! ### The law of the rotation -/

/-- The shifts the documentation allows. -/
def InRange (m : ℕ) (s : Int32) : Prop := -(m : ℤ) ≤ s.toInt ∧ s.toInt ≤ m

/-- Every text of `m` elements is turned by a shift in the range, and refuses the others. -/
structure Rotates (m : ℕ) (s : Int32) : Prop where
  turns : InRange m s → ∀ texts pk, texts.length = m →
    rotate (sized m texts pk) s = .ok (ofVec pk (Cyclic.shift texts s.toInt))
  refuses : ¬ InRange m s → ∀ texts pk, texts.length = m →
    ∃ msg, rotate (sized m texts pk) s = .error (.runtime msg)

/-- The shift is not a negative one of the range.  A size that is not an `int` also wants
the shift to be zero, and then the cast size not to be negative, or to be above the
negative of the cast size with an `int` left to turn by. -/
def RotationFits (m : ℕ) (s : Int32) : Prop :=
  m < 2 ^ 31 ∧ (0 ≤ s.toInt ∨ s.toInt < -m) ∨
  2 ^ 31 ≤ m ∧ (s.toInt = 0 ∧ m % 2 ^ 32 < 2 ^ 31 ∨
    0 < s.toInt ∧ 2 ^ 31 < m ∧ (m : ℤ) - s.toInt < 2 ^ 31 ∧ 2 ^ 32 < (m : ℤ) + s.toInt)

section
variable {m : ℕ} {s : Int32}

theorem sizeSub_toSize (h0 : 0 ≤ s.toInt) (hle : s.toInt ≤ m) (hm : m < 2 ^ 63) :
    (sizeSub m (toSize s.toInt) : ℤ) = m - s.toInt := by
  have hsize := toSize_of_nonneg h0 s.toInt_lt
  unfold sizeSub
  omega

/-- A shift that passes all tests and leaves an `int` to turn by. -/
theorem turns_right (hm : 2 ≤ m) (hm63 : m < 2 ^ 63) (hc : toInt m ≠ -2 ^ 31)
    (hlow : -toInt m < s.toInt) (hpos : 0 < s.toInt) (hlt : s.toInt < m)
    (hrest : (m : ℤ) - s.toInt < 2 ^ 31) {texts : List ℤ} (hlen : texts.length = m)
    (pk : PublicKey) :
    rotate (sized m texts pk) s = .ok (ofVec pk (Cyclic.shift texts s.toInt)) := by
  have hsize := toSize_of_nonneg hpos.le s.toInt_lt
  have hsub := sizeSub_toSize hpos.le hlt.le hm63
  have hmid : toInt (sizeSub m (toSize s.toInt)) = m - s.toInt := by
    rw [toInt_of_lt (by omega), hsub]
  rw [rotate_right (by omega) hc ⟨hlow.le, by omega⟩ hpos (by omega) hlow.ne', hmid, stdRotate,
    if_pos ⟨by omega, by omega⟩, Cyclic.shift_eq_rotate hpos (by omega), hlen]
  rfl

theorem rotates_of_fits (hm : 2 ≤ m) (hm63 : m < 2 ^ 63) (hfits : RotationFits m s) :
    Rotates m s := by
  have hlo := s.le_toInt
  have hhi := s.toInt_lt
  rcases hfits with ⟨hsmall, hs⟩ | ⟨hbig, hs⟩
  · have hc : toInt m = m := toInt_of_lt hsmall
    have hcne : toInt m ≠ -2 ^ 31 := by omega
    refine ⟨fun hin texts pk hlen => ?_, fun hout texts pk _ =>
      ⟨"rotate: Cannot shift more than the test size", ?_⟩⟩
    · have h0 : 0 ≤ s.toInt := by
        rcases hs with h | h
        · exact h
        · exact absurd hin.1 (by omega)
      have hsize := toSize_of_nonneg h0 hhi
      have hle := hin.2
      have hguard : -toInt m ≤ s.toInt ∧ toSize s.toInt ≤ m := ⟨by omega, by omega⟩
      by_cases hzero : s.toInt = 0
      · rw [rotate_same (by omega) hcne hguard (.inl hzero), hzero, Cyclic.shift_zero]
      by_cases hfull : s.toInt = m
      · rw [rotate_same (by omega) hcne hguard (.inr (.inl (by omega))), hfull, ← hlen,
          Cyclic.shift_length]
      · exact turns_right hm hm63 hcne (by omega) (by omega) (by omega) (by omega) hlen pk
    · refine rotate_refused (by omega) hcne fun hguard => hout ⟨by omega, ?_⟩
      have hupper := hguard.2
      rcases Int.lt_or_le s.toInt 0 with hneg | h0
      · omega
      · have hsize := toSize_of_nonneg h0 hhi
        omega
  · have hin : InRange m s := ⟨by omega, by omega⟩
    refine ⟨fun _ texts pk hlen => ?_, fun hout => absurd hin hout⟩
    rcases hs with ⟨hzero, hcast⟩ | ⟨hpos, hgt, hrest, hlow⟩
    · have hc : toInt m = (m % 2 ^ 32 : ℕ) := by rw [toInt_eq, if_pos hcast]
      have hsize := toSize_of_nonneg hzero.ge hhi
      rw [rotate_same (by omega) (by omega) ⟨by omega, by omega⟩ (.inl hzero), hzero,
        Cyclic.shift_zero]
    · have hc : toInt m = m - 2 ^ 32 := by
        rw [toInt_eq, if_neg (by omega)]
        omega
      exact turns_right hm hm63 (by omega) (by omega) hpos (by omega) hrest hlen pk

/-- The numbers below `m`, so that a turned copy shows how far it was turned. -/
def counting (m : ℕ) : List ℤ := (List.range m).map Int.ofNat

theorem length_counting (m : ℕ) : (counting m).length = m := by
  simp [counting]

theorem head_rotate_counting {k : ℕ} (hk : k < m) : ((counting m).rotate k)[0]? = some (k : ℤ) := by
  rw [List.getElem?_rotate (by rw [length_counting]; omega), length_counting, Nat.zero_add,
    Nat.mod_eq_of_lt hk, counting, List.getElem?_map, List.getElem?_range hk]
  rfl

/-- How far the turned numbers have to be turned. -/
theorem head_shift_counting (hpos : 0 < s.toInt) (hlt : s.toInt < m) :
    (Cyclic.shift (counting m) s.toInt)[0]? = some ((m : ℤ) - s.toInt) := by
  rw [Cyclic.shift_eq_rotate hpos (by rw [length_counting]; exact hlt), length_counting,
    head_rotate_counting (by omega), Int.toNat_of_nonneg (by omega)]

/-- The first number says how far a copy was turned. -/
theorem turned_by {k : ℕ} (hk : k < m) (hpos : 0 < s.toInt) (hlt : s.toInt < m)
    (htexts : (counting m).rotate k = Cyclic.shift (counting m) s.toInt) :
    (k : ℤ) = m - s.toInt := by
  have hhead := head_shift_counting hpos hlt
  rw [← htexts, head_rotate_counting hk] at hhead
  exact Option.some.inj hhead

/-- A key to hold the numbers. -/
def anyKey : PublicKey where
  isInitialized := true
  n := 15
  g := 16
  nsquare := 225
  bits := 4
  dwords := 1
  hs := 0
  randbits := 0
  djnEnabled := false
  r := []
  testv := false

theorem fits_of_rotates (hm : 2 ≤ m) (hm63 : m < 2 ^ 63) (hrot : Rotates m s) :
    RotationFits m s := by
  have hlo := s.le_toInt
  have hhi := s.toInt_lt
  have hturn := fun hin => hrot.turns hin (counting m) anyKey (length_counting m)
  by_contra hfits
  unfold RotationFits at hfits
  push Not at hfits
  obtain ⟨hsmall, hbig⟩ := hfits
  by_cases hlt : m < 2 ^ 31
  · obtain ⟨hneg, hge⟩ := hsmall hlt
    have hc : toInt m = m := toInt_of_lt hlt
    have hsize := toSize_of_neg hneg hlo
    have hin := hturn ⟨hge, by omega⟩
    rw [rotate_refused (by omega) (by omega) fun hguard => by omega] at hin
    cases hin
  obtain ⟨hzero, hpos⟩ := hbig (by omega)
  have hin := hturn ⟨by omega, by omega⟩
  by_cases hc : toInt m = -2 ^ 31
  · rw [rotate_overflow (by omega) hc] at hin
    cases hin
  by_cases hguard : -toInt m ≤ s.toInt ∧ toSize s.toInt ≤ m
  swap
  · rw [rotate_refused (by omega) hc hguard] at hin
    cases hin
  obtain ⟨hlow, hup⟩ := hguard
  have h0 : 0 ≤ s.toInt := by
    by_contra hneg
    have hsize := toSize_of_neg (by omega) hlo
    omega
  have hsize := toSize_of_nonneg h0 hhi
  by_cases hz : s.toInt = 0
  · have hcast := hzero hz
    have hcneg : toInt m = (m % 2 ^ 32 : ℕ) - 2 ^ 32 := by rw [toInt_eq, if_neg (by omega)]
    omega
  by_cases heq : s.toInt = -toInt m
  · -- the text is handed back as it is
    rw [rotate_same (by omega) hc ⟨hlow, hup⟩ (.inr (.inr heq))] at hin
    have htexts : counting m = Cyclic.shift (counting m) s.toInt :=
      congrArg (fun ct : CipherText => ct.texts) (Except.ok.inj hin)
    replace htexts := (List.rotate_zero (counting m)).trans htexts
    have hby := turned_by (m := m) (s := s) (by omega) (by omega) (by omega) htexts
    omega
  · -- the number of places to turn is not an `int`
    have hsub := sizeSub_toSize (m := m) h0 (by omega) hm63
    rw [rotate_right (by omega) hc ⟨hlow, hup⟩ (by omega) (by omega) heq] at hin
    have hrest : 2 ^ 31 ≤ (m : ℤ) - s.toInt := by
      by_contra hrest
      have hgt : m ≠ 2 ^ 31 := by
        rintro rfl
        exact hc (by rw [toInt_eq]; norm_num)
      have hcm : toInt m = m - 2 ^ 32 := by
        rw [toInt_eq, if_neg (by omega)]
        omega
      have := hpos (by omega) (by omega) (by omega)
      omega
    set v := toInt (sizeSub m (toSize s.toInt)) with hv
    have hvlt : v < 2 ^ 31 := by
      rw [hv, toInt_eq]
      split_ifs <;> omega
    unfold stdRotate at hin
    by_cases hrange : 0 ≤ v ∧ v ≤ (counting m).length
    · rw [if_pos hrange] at hin
      have htexts : (counting m).rotate v.toNat = Cyclic.shift (counting m) s.toInt :=
        congrArg (fun ct : CipherText => ct.texts) (Except.ok.inj hin)
      have hby := turned_by (m := m) (s := s) (by omega) (by omega) (by omega) htexts
      omega
    · rw [if_neg hrange] at hin
      cases hin

/-- **A rotation is what it should be for the shifts that survive the conversions.** -/
theorem rotates_iff (hm : 2 ≤ m) (hm63 : m < 2 ^ 63) : Rotates m s ↔ RotationFits m s :=
  ⟨fits_of_rotates hm hm63, rotates_of_fits hm hm63⟩

end

/-- Three elements and one place to the right. -/
theorem rotates_three : Rotates 3 1 :=
  (rotates_iff (by decide) (by decide)).mpr (.inl ⟨by decide, .inl (by decide)⟩)

/-- Three elements and one place to the left. -/
theorem not_rotates_three_left : ¬ Rotates 3 (-1) := by
  intro hrot
  have hturn := hrot.turns ⟨by decide, by decide⟩ [1, 2, 3] anyKey rfl
  have hrefused : rotate (sized 3 [1, 2, 3] anyKey) (-1)
      = .error (.runtime "rotate: Cannot shift more than the test size") := by decide +kernel
  rw [hrefused] at hturn
  cases hturn

/-! ### What a rotation does to its elements -/

/-- Where an element goes. -/
theorem rotate_moves {m : ℕ} {s : Int32} (hs : Rotates m s) (hin : InRange m s) {texts : List ℤ}
    (hlen : texts.length = m) (pk : PublicKey) {i : ℕ} (hi : i < m) :
    ∃ ct, rotate (sized m texts pk) s = .ok ct ∧
      ct.texts[((i + s.toInt) % m).toNat]? = texts[i]? := by
  refine ⟨_, hs.turns hin texts pk hlen, ?_⟩
  subst hlen
  exact Cyclic.getElem?_shift texts s.toInt hi

/-- One rotation after the other is the rotation by the sum, where both go through. -/
theorem rotate_rotate {m : ℕ} {s t : Int32} (hs : Rotates m s) (ht : Rotates m t)
    (hins : InRange m s) (hint : InRange m t) {texts : List ℤ} (hlen : texts.length = m)
    (pk : PublicKey) :
    (rotate (sized m texts pk) s >>= fun ct => rotate ct t)
      = .ok (ofVec pk (Cyclic.shift texts (s.toInt + t.toInt))) := by
  have hlen' : (Cyclic.shift texts s.toInt).length = m := by rw [Cyclic.length_shift, hlen]
  have hsized : ofVec pk (Cyclic.shift texts s.toInt)
      = sized m (Cyclic.shift texts s.toInt) pk := by
    rw [sized, ← hlen']
    rfl
  rw [hs.turns hins texts pk hlen, Result.bind_ok, hsized, ht.turns hint _ pk hlen',
    Cyclic.shift_shift]

/-- Decrypting a rotated text rotates what it decrypts to, where decryption can count it. -/
theorem decrypt_rotate {ipp : Ipp} {me : ModExp} (h : ipp.Lawful) (hme : me.Lawful Short)
    (P : Paillier.PrimePair) {m : ℕ} (hcount : m < 2 ^ 31) {s : Int32} (hs : Rotates m s)
    (hin : InRange m s) {pk : PublicKey} (hpk : pk.For P.n) {texts ms : List ℤ}
    (hlen : texts.length = m)
    (hct : EncryptsVec P.n pk (sized m texts pk) ms) (hne : ms ≠ []) (crt : Bool) :
    (rotate (sized m texts pk) s >>= fun ct =>
        PrivateKey.decrypt ipp me ((PrivateKey.ofPair ipp P).enableCRT crt) ct)
      = (PrivateKey.decrypt ipp me ((PrivateKey.ofPair ipp P).enableCRT crt) (sized m texts pk)
          >>= fun pt => .ok (BaseText.ofVec (Cyclic.shift pt.texts s.toInt))) := by
  have hct' : EncryptsVec P.n pk (ofVec pk (Cyclic.shift texts s.toInt))
      (Cyclic.shift ms s.toInt) :=
    ⟨of_ofVec pk _, Cyclic.forall₂_shift hct.texts s.toInt⟩
  have hne' : Cyclic.shift ms s.toInt ≠ [] := by
    rw [← List.length_pos_iff, Cyclic.length_shift]
    exact List.length_pos_iff.mpr hne
  have hsize : ms.length < 2 ^ 31 := by
    rw [← hct.length_eq]
    show texts.length < 2 ^ 31
    rwa [hlen]
  rw [hs.turns hin texts pk hlen, Result.bind_ok,
    PrivateKey.decrypt_encryptsVec h hme P hpk hct' hne' (by rwa [Cyclic.length_shift]),
    PrivateKey.decrypt_encryptsVec h hme P hpk hct hne hsize, Result.bind_ok, Cyclic.map_shift]
  rfl

end Ipcl.CipherText
