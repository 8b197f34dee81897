/-
The bit function.

`TestBit` compares a zero-based index with a length, and lets the index equal to the
length through.  It then reads the word that holds the bit after the top one.  Unless
the length is a multiple of 32 that word is the top word and the bit is a zero in it.
Otherwise the word is the one after the last: above a number of an odd number of words
it is the unused half of the top digit, above any other it is not part of the number at
all.
-/
import Ipcl.KeyGen

namespace Ipcl.BigNumber

/-- The word `TestBit` reads, if it reads any. -/
def wordRead (x : ℤ) (index : ℕ) : Option ℕ :=
  if index > bitLen x then none else some (index / 32)

/-- Bit `index % 32` of word `w` of a number. -/
def bitOfWord (x : ℤ) (w index : ℕ) : Bool :=
  (x.natAbs / 2 ^ (32 * w) % 2 ^ 32) >>> (index % 32) &&& 1 = 1

/-- What `TestBit` returns it takes from that word, if the storage of the number has it. -/
theorem testBit_of_wordRead (x : ℤ) (index : ℕ) : testBit x index =
    match wordRead x index with
    | none => .ok false
    | some w =>
        if w < 2 * roomOf (bitsizeWord (bitLen x)) then .ok (bitOfWord x w index)
        else .error (.undefined "read past the words of a number") := by
  unfold testBit wordRead bitOfWord
  by_cases hlen : index > bitLen x
  · rw [if_pos hlen, if_pos hlen]
  · rw [if_neg hlen, if_neg hlen]

/-- The bit of the word is the bit of the number. -/
theorem bitOfWord_eq (x : ℤ) (index : ℕ) :
    bitOfWord x (index / 32) index = x.natAbs.testBit index := by
  have hmod : index % 32 < 32 := Nat.mod_lt _ (by decide)
  have hbit : (x.natAbs / 2 ^ (32 * (index / 32)) % 2 ^ 32).testBit (index % 32)
      = x.natAbs.testBit index := by
    rw [Nat.testBit_mod_two_pow, Nat.testBit_div_two_pow, Nat.mod_add_div]
    simp [hmod]
  rw [← hbit, bitOfWord, Nat.testBit_eq_decide_div_mod_eq, Nat.and_one_is_mod,
    Nat.shiftRight_eq_div_pow]

/-- `TestBit` returns the bit, and the word it reads is one of those that hold the number. -/
structure BitFunction (x : ℤ) (index : ℕ) : Prop where
  bit : testBit x index = .ok (x.natAbs.testBit index)
  inside : ∀ w, wordRead x index = some w → w < bitsizeWord (bitLen x)

/-- The index is the length, and the length fills its last word. -/
def AtFullLength (x : ℤ) (index : ℕ) : Prop := index = bitLen x ∧ 32 ∣ bitLen x

instance (x : ℤ) (index : ℕ) : Decidable (AtFullLength x index) := by
  unfold AtFullLength
  infer_instance

theorem testBit_natAbs_of_bitLen_le {x : ℤ} {index : ℕ} (hle : bitLen x ≤ index) :
    x.natAbs.testBit index = false :=
  Nat.testBit_lt_two_pow
    ((natAbs_lt_two_pow_bitLen x).trans_le (Nat.pow_le_pow_right Nat.two_pos hle))

/-- The word of an index is one of those that hold the number, except at the length of a
number that fills its last word. -/
theorem word_inside_iff {x : ℤ} {index : ℕ} (hle : index ≤ bitLen x) :
    index / 32 < bitsizeWord (bitLen x) ↔ ¬ AtFullLength x index := by
  unfold AtFullLength bitsizeWord
  omega

theorem word_stored {x : ℤ} {w : ℕ} (hw : w < bitsizeWord (bitLen x)) :
    w < 2 * roomOf (bitsizeWord (bitLen x)) := by
  unfold roomOf
  omega

/-- **`TestBit` is the bit function, except at the length of a number that fills its last
word.** -/
theorem bitFunction_iff (x : ℤ) (index : ℕ) :
    BitFunction x index ↔ ¬ AtFullLength x index := by
  by_cases hlen : index > bitLen x
  · have hnone : wordRead x index = none := if_pos hlen
    constructor
    · intro _ hfull
      have := hfull.1
      omega
    · intro _
      refine ⟨?_, fun w hw => ?_⟩
      · rw [testBit_of_wordRead, hnone, testBit_natAbs_of_bitLen_le hlen.le]
      · rw [hnone] at hw
        cases hw
  · have hsome : wordRead x index = some (index / 32) := if_neg hlen
    rw [← word_inside_iff (by omega)]
    constructor
    · intro hbit
      exact hbit.inside _ hsome
    · intro hin
      refine ⟨?_, fun w hw => ?_⟩
      · rw [testBit_of_wordRead, hsome]
        simp only [if_pos (word_stored hin), bitOfWord_eq]
      · rw [hsome] at hw
        cases hw
        exact hin

/-- The bit after the top one of a number of one full digit is read outside its storage. -/
theorem not_bitFunction_digit :
    testBit (2 ^ 63) 64 = .error (.undefined "read past the words of a number") ∧
      ¬ BitFunction (2 ^ 63) 64 := by
  have herr : testBit (2 ^ 63) 64 = .error (.undefined "read past the words of a number") := by
    decide
  refine ⟨herr, fun hbit => ?_⟩
  have := hbit.bit
  rw [herr] at this
  cases this

end Ipcl.BigNumber
