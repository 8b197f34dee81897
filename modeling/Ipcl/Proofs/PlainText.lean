/-
No plaintext rotates.

The lower end of the range is the size subtracted from `2 ^ 64`.  Below `2 ^ 63` that is
larger than the size, and then no shift is between the two, so every rotation of two or
more elements is refused: the ones that should be and the ones that should not.
-/
import Ipcl.PlainText
import Ipcl.Proofs.Rotate

namespace Ipcl.PlainText

open CipherText

variable {m : ℕ} {s : Int32}

/-- The two comparisons of the guard exclude each other. -/
theorem guard_false (hm : 0 < m) (hm63 : m < 2 ^ 63) (x : ℕ) :
    (decide (sizeSub 0 m ≤ x) && decide (x ≤ m)) = false := by
  have hlow : sizeSub 0 m = 2 ^ 64 - m := by
    unfold sizeSub
    omega
  rw [Bool.and_eq_false_iff, decide_eq_false_iff_not, decide_eq_false_iff_not, hlow]
  omega

/-- Every rotation of two or more elements throws. -/
theorem rotate_refused (hm : 2 ≤ m) (hm63 : m < 2 ^ 63) (texts : List ℤ) (s : Int32) :
    rotate ⟨texts, m⟩ s = .error (.runtime "rotate: Cannot shift more than the test size") := by
  have hne : (m != 1) = true := by
    rw [bne_iff_ne]
    omega
  show (errorCheck (m != 1) _ >>= fun _ =>
    errorCheck (decide (sizeSub 0 m ≤ toSize s.toInt) && decide (toSize s.toInt ≤ m)) _ >>= _) = _
  rw [hne, guard_false (by omega) hm63, errorCheck_true, Result.bind_ok, errorCheck_false,
    Result.bind_error]

/-- What a rotation of `m` elements by `s` should do: turn the text for a shift in the range
and throw for the others, and go along with the rotation of a ciphertext. -/
structure Rotates (m : ℕ) (s : Int32) : Prop where
  turns : InRange m s → ∀ texts, texts.length = m →
    rotate ⟨texts, m⟩ s = .ok (BaseText.ofVec (Cyclic.shift texts s.toInt))
  refuses : ¬ InRange m s → ∀ texts, texts.length = m → Throws (rotate ⟨texts, m⟩ s)
  decrypts : ∀ (ipp : Ipp) (me : ModExp) (sk : PrivateKey) (pk : PublicKey) (texts : List ℤ),
    texts.length = m → ∀ ct' pt, CipherText.rotate (sized m texts pk) s = .ok ct' →
      PrivateKey.decrypt ipp me sk (sized m texts pk) = .ok pt →
      ∃ pt', rotate pt s = .ok pt' ∧ PrivateKey.decrypt ipp me sk ct' = .ok pt'

/-- A ciphertext refuses what is outside the range. -/
theorem not_ok_of_not_inRange (hm : 2 ≤ m) (hm63 : m < 2 ^ 63) (hout : ¬ InRange m s)
    {texts : List ℤ} (hlen : texts.length = m) (pk : PublicKey) (ct' : CipherText) :
    CipherText.rotate (sized m texts pk) s ≠ .ok ct' := by
  have hlo := s.le_toInt
  have hhi := s.toInt_lt
  have hsmall : m < 2 ^ 31 ∧ (0 ≤ s.toInt ∨ s.toInt < -m) := by
    unfold InRange at hout
    omega
  obtain ⟨msg, hmsg⟩ := (CipherText.rotates_of_fits hm hm63 (.inl hsmall)).refuses hout texts pk
    hlen
  rw [hmsg]
  exact nofun

/-- **A rotation does what it should only where it should throw.** -/
theorem plain_rotates_iff (hm : 2 ≤ m) (hm63 : m < 2 ^ 63) : Rotates m s ↔ ¬ InRange m s := by
  constructor
  · intro hrot hin
    have hturn := hrot.turns hin (counting m) (length_counting m)
    rw [rotate_refused hm hm63] at hturn
    cases hturn
  · intro hout
    refine ⟨fun hin => absurd hin hout, fun _ texts _ => ⟨_, rotate_refused hm hm63 texts s⟩, ?_⟩
    intro ipp me sk pk texts hlen ct' pt hct
    exact absurd hct (not_ok_of_not_inRange hm hm63 hout hlen pk ct')

/-- Three elements and five places. -/
theorem plain_rotates_three_five : Rotates 3 5 :=
  (plain_rotates_iff (by decide) (by decide)).mpr fun hin => absurd hin.2 (by decide)

/-- Three elements and one place to the right. -/
theorem not_plain_rotates_three : ¬ Rotates 3 1 := by
  intro hrot
  have hturn := hrot.turns ⟨by decide, by decide⟩ [1, 2, 3] rfl
  have hrefused : rotate ⟨[1, 2, 3], 3⟩ 1
      = .error (.runtime "rotate: Cannot shift more than the test size") := by decide +kernel
  rw [hrefused] at hturn
  cases hturn

end Ipcl.PlainText
