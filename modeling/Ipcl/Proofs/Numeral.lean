/-
Numerals, read and printed.

The constructor from a string gives every character its position in a table of sixteen
digits and never asks whether the position is a digit of the base.  A character that the
table does not have gets the position 16, a capital letter among them, and a letter in a
decimal numeral gets its hexadecimal value.  So the numerals that are read right are those
that need neither, and a string that is no numeral is refused only where its length makes
a buffer of no words.

The printer leaves out the zeros in front.  Of the number zero it leaves nothing, and what
it prints then has no digit to read back.
-/
import Ipcl.BigNumber.Numeral
import Ipcl.Lib.Numeral

namespace Ipcl.BigNumber

/-! ### What a numeral denotes -/

/-- The hexadecimal digits with capital letters. -/
def capitalDigitList : List Char :=
  ['0', '1', '2', '3', '4', '5', '6', '7', '8', '9', 'A', 'B', 'C', 'D', 'E', 'F']

/-- The value of a digit, in lower or upper case. -/
def charDigit (c : Char) : Option ℕ :=
  if c ∈ hexDigitList then some (hexDigitList.idxOf c)
  else if c ∈ capitalDigitList then some (capitalDigitList.idxOf c)
  else none

/-- The character is a digit of the base. -/
def IsDigit (b : ℕ) (c : Char) : Prop := ∃ d ∈ charDigit c, d < b

instance (b : ℕ) (c : Char) : Decidable (IsDigit b c) :=
  match h : charDigit c with
  | none => isFalse (by simp [IsDigit, h])
  | some d => decidable_of_iff (d < b) (by simp [IsDigit, h])

/-- Deciding for the characters of a string, not for all characters there are. -/
instance (p : Char → Prop) [DecidablePred p] (s : CString) : Decidable (∀ c ∈ s, p c) :=
  List.decidableBAll p s

/-- The number the digits make. -/
def digitsValue (b : ℕ) (body : CString) : ℕ :=
  Numeral.horner b (body.map fun c => (charDigit c).getD 0)

def signText (neg : Bool) : CString := if neg then ['-'] else []

def signed (neg : Bool) (v : ℕ) : ℤ := if neg then -v else v

/-- The numerals and the integers they denote. -/
inductive Denotes : CString → ℤ → Prop
  | decimal (neg : Bool) (body : CString) (hne : body ≠ [])
      (hall : ∀ c ∈ body, IsDigit 10 c) :
      Denotes (signText neg ++ body) (signed neg (digitsValue 10 body))
  | hexadecimal (neg : Bool) (x : Char) (hx : x = 'x' ∨ x = 'X') (body : CString)
      (hne : body ≠ []) (hall : ∀ c ∈ body, IsDigit 16 c) :
      Denotes (signText neg ++ '0' :: x :: body) (signed neg (digitsValue 16 body))

/-! ### Sign and base -/

/-- Every digit of the string is a digit of the base. -/
def Prefixed.AllDigits (r : Prefixed) : Prop := ∀ c ∈ r.body, IsDigit r.base.toNat c

instance (r : Prefixed) : Decidable r.AllDigits := by
  unfold Prefixed.AllDigits
  infer_instance

theorem splitSign_text (neg : Bool) {s : CString} (hs : s.head? ≠ some '-') :
    splitSign (signText neg ++ s) = (neg, s) := by
  cases neg with
  | true => rfl
  | false =>
      show splitSign s = (false, s)
      unfold splitSign
      split
      · exact absurd rfl hs
      · rfl

theorem not_isDigit_minus {b : ℕ} : ¬ IsDigit b '-' := by
  have hnone : charDigit '-' = none := by decide
  rintro ⟨d, hd, -⟩
  rw [hnone] at hd
  cases hd

theorem not_isDigit_x {b : ℕ} {x : Char} (hx : x = 'x' ∨ x = 'X') : ¬ IsDigit b x := by
  have hnone : charDigit x = none := by
    rcases hx with rfl | rfl <;> decide
  rintro ⟨d, hd, -⟩
  rw [hnone] at hd
  cases hd

theorem split_decimal (neg : Bool) {body : CString} (hall : ∀ c ∈ body, IsDigit 10 c) :
    split (signText neg ++ body) = ⟨neg, 10, body⟩ := by
  have hhead : body.head? ≠ some '-' := by
    intro h
    exact not_isDigit_minus (hall _ (List.mem_of_head? h))
  rw [split, splitSign_text neg hhead]
  show splitBase neg body = ⟨neg, 10, body⟩
  unfold splitBase
  split
  · exact absurd (hall 'x' (by simp)) (not_isDigit_x (.inl rfl))
  · exact absurd (hall 'X' (by simp)) (not_isDigit_x (.inr rfl))
  · rfl

theorem split_hexadecimal (neg : Bool) {x : Char} (hx : x = 'x' ∨ x = 'X') (body : CString) :
    split (signText neg ++ '0' :: x :: body) = ⟨neg, 0x10, body⟩ := by
  rw [split, splitSign_text neg (by simp)]
  rcases hx with rfl | rfl <;> rfl

/-- A sign is taken off, or there is none. -/
theorem splitSign_eq (s : CString) : s = signText (splitSign s).1 ++ (splitSign s).2 := by
  unfold splitSign
  split <;> rfl

/-- A prefix is taken off, or the base is 10. -/
theorem splitBase_cases (neg : Bool) (s : CString) :
    splitBase neg s = ⟨neg, 10, s⟩ ∨
      ∃ x body, (x = 'x' ∨ x = 'X') ∧ s = '0' :: x :: body ∧
        splitBase neg s = ⟨neg, 0x10, body⟩ := by
  unfold splitBase
  split
  · exact .inr ⟨_, _, .inl rfl, rfl, rfl⟩
  · exact .inr ⟨_, _, .inr rfl, rfl, rfl⟩
  · exact .inl rfl

/-- What is split off with digits behind it is a numeral. -/
theorem denotes_of_split {s : CString} (hne : (split s).body ≠ []) (hall : (split s).AllDigits) :
    Denotes s (signed (split s).neg (digitsValue (split s).base.toNat (split s).body)) := by
  have hs := splitSign_eq s
  rcases splitBase_cases (splitSign s).1 (splitSign s).2 with h | ⟨x, body, hx, hrest, h⟩
  · have hsplit : split s = ⟨(splitSign s).1, 10, (splitSign s).2⟩ := h
    rw [hsplit] at hne hall ⊢
    have := Denotes.decimal (splitSign s).1 (splitSign s).2 hne hall
    rwa [← hs] at this
  · have hsplit : split s = ⟨(splitSign s).1, 0x10, body⟩ := h
    rw [hsplit] at hne hall ⊢
    have := Denotes.hexadecimal (splitSign s).1 x hx body hne hall
    rwa [← hrest, ← hs] at this

/-- A numeral is split into its parts. -/
theorem split_of_denotes {s : CString} {v : ℤ} (h : Denotes s v) :
    (split s).body ≠ [] ∧ (split s).AllDigits ∧
      v = signed (split s).neg (digitsValue (split s).base.toNat (split s).body) := by
  cases h with
  | decimal neg body hne hall =>
      rw [split_decimal neg hall]
      exact ⟨hne, hall, rfl⟩
  | hexadecimal neg x hx body hne hall =>
      rw [split_hexadecimal neg hx]
      exact ⟨hne, hall, rfl⟩

/-! ### The loop -/

theorem digitOf_of_mem {c : Char} (hc : c ∈ hexDigitList) : charDigit c = some (digitOf c) :=
  if_pos hc

theorem digitOf_of_notMem {c : Char} (hc : c ∉ hexDigitList) : digitOf c = 16 :=
  List.idxOf_eq_length hc

theorem mem_of_digitOf_lt {c : Char} (hc : digitOf c < 16) : c ∈ hexDigitList := by
  by_contra hnot
  rw [digitOf_of_notMem hnot] at hc
  omega

theorem charDigit_lt {c : Char} {d : ℕ} (h : charDigit c = some d) : d < 16 := by
  unfold charDigit at h
  split at h
  · rename_i hc
    cases h
    exact List.idxOf_lt_length_of_mem hc
  · split at h
    · rename_i hc
      cases h
      exact List.idxOf_lt_length_of_mem hc
    · cases h

/-- The table gives a digit its value or a larger one. -/
theorem charDigit_le_digitOf {c : Char} {d : ℕ} (h : charDigit c = some d) : d ≤ digitOf c := by
  by_cases hc : c ∈ hexDigitList
  · rw [digitOf_of_mem hc] at h
    cases h
    exact le_rfl
  · rw [digitOf_of_notMem hc]
    exact (charDigit_lt h).le

/-- A position below the base is the value of a digit of the base. -/
theorem charDigit_of_digitOf_lt {b : ℕ} (hb : b ≤ 16) {c : Char} (h : digitOf c < b) :
    charDigit c = some (digitOf c) :=
  digitOf_of_mem (mem_of_digitOf_lt (by omega))

variable {ipp : Ipp} (h : ipp.Lawful)
include h

theorem foldl_addDigit (base : UInt32) (body : CString) (x : ℕ) :
    body.foldl (addDigit ipp base) (x : ℤ)
      = ((body.map digitOf).foldl (fun x d => x * base.toNat + d) x : ℕ) := by
  induction body generalizing x with
  | nil => rfl
  | cons c rest ih =>
      have hstep : addDigit ipp base x c = ((x * base.toNat + digitOf c : ℕ) : ℤ) := by
        rw [addDigit, mul32_eq h, add_eq h]
        push_cast
        rfl
      rw [List.foldl_cons, hstep, ih]
      rfl

/-- What the constructor makes of a string it does not refuse. -/
theorem ofString_eq (s : CString) : ofString ipp s =
    if 1 ≤ (split s).dataLen then
      .ok (signed (split s).neg (Numeral.horner (split s).base.toNat ((split s).body.map digitOf)))
    else .error (.undefined "number of no words") := by
  unfold ofString create
  by_cases hlen : (split s).dataLen < 1
  · simp only [if_pos hlen, if_neg (by omega : ¬ 1 ≤ (split s).dataLen)]
    rfl
  · have hfold := foldl_addDigit h (split s).base (split s).body 0
    rw [Nat.cast_zero] at hfold
    simp only [if_neg hlen, if_pos (by omega : 1 ≤ (split s).dataLen), Result.bind_ok, hfold]
    rw [sub_eq_of_nonneg h le_rfl (Int.natCast_nonneg _), zero_sub]
    rfl

omit h

/-! ### Which strings are read right -/

/-- A numeral gives the integer it denotes, and no string with another character among the
digits gives a number. -/
structure ReadRight (ipp : Ipp) (s : CString) : Prop where
  numeral : ∀ v, Denotes s v → ofString ipp s = .ok v
  other : (∃ c ∈ (split s).body, ¬ IsDigit (split s).base.toNat c) → ∀ v, ofString ipp s ≠ .ok v

/-- Where the length makes a buffer, the table gives every character a digit of the base;
where it makes none, the string is no numeral. -/
def Handled (s : CString) : Prop :=
  if 1 ≤ (split s).dataLen then ∀ c ∈ (split s).body, digitOf c < (split s).base.toNat
  else (split s).body = [] ∨ ¬ (split s).AllDigits

instance (s : CString) : Decidable (Handled s) := by
  unfold Handled
  infer_instance

theorem base_split (s : CString) : (split s).base = 10 ∨ (split s).base = 0x10 := by
  rcases splitBase_cases (splitSign s).1 (splitSign s).2 with h | ⟨x, body, -, -, h⟩
  · exact .inl (congrArg Prefixed.base h)
  · exact .inr (congrArg Prefixed.base h)

theorem base_le (s : CString) : 0 < (split s).base.toNat ∧ (split s).base.toNat ≤ 16 := by
  rcases base_split s with h | h
  · rw [h]
    decide
  · rw [h]
    decide

/-- A buffer is made only where there is a digit. -/
theorem body_ne_nil {s : CString} (hlen : 1 ≤ (split s).dataLen) : (split s).body ≠ [] := by
  intro hnil
  unfold Prefixed.dataLen at hlen
  rw [hnil] at hlen
  split at hlen
  · exact absurd hlen (by decide)
  · exact absurd hlen (by decide)

theorem signed_injective {neg : Bool} {v w : ℕ} (h : signed neg v = signed neg w) : v = w := by
  unfold signed at h
  split at h <;> omega

/-- Digits that the table gives a larger value make a larger number. -/
theorem digitOf_eq_of_value_eq {b : ℕ} (hb : 0 < b) {body : CString}
    (hall : ∀ c ∈ body, IsDigit b c)
    (heq : Numeral.horner b (body.map digitOf) = digitsValue b body) :
    ∀ c ∈ body, digitOf c < b := by
  have hle : List.Forall₂ (· ≤ ·) (body.map fun c => (charDigit c).getD 0) (body.map digitOf) := by
    rw [List.forall₂_map_left_iff, List.forall₂_map_right_iff, List.forall₂_same]
    intro c hc
    obtain ⟨d, hd, -⟩ := hall c hc
    rw [hd]
    exact charDigit_le_digitOf hd
  have hsame : (body.map fun c => (charDigit c).getD 0) = body.map digitOf := by
    by_contra hne
    have := Numeral.horner_lt hle hb hne
    rw [heq] at this
    exact lt_irrefl _ this
  intro c hc
  obtain ⟨d, hd, hlt⟩ := hall c hc
  have hget := List.map_inj_left.mp hsame c hc
  rw [hd] at hget
  rwa [← hget]

include h

/-- **A string is read right exactly when the table gives each of its characters a digit of
the base.** -/
theorem readRight_iff (s : CString) : ReadRight ipp s ↔ Handled s := by
  have hrun := ofString_eq h s
  obtain ⟨hb, hb16⟩ := base_le s
  unfold Handled
  by_cases hlen : 1 ≤ (split s).dataLen
  · rw [if_pos hlen] at hrun ⊢
    constructor
    · intro hread
      have hall : (split s).AllDigits := by
        by_contra hnot
        unfold Prefixed.AllDigits at hnot
        push Not at hnot
        exact hread.other hnot _ hrun
      have hval := hread.numeral _ (denotes_of_split (body_ne_nil hlen) hall)
      rw [hrun] at hval
      exact digitOf_eq_of_value_eq hb hall (signed_injective (Except.ok.inj hval))
    · intro hdigits
      have hvalue : ∀ c ∈ (split s).body, charDigit c = some (digitOf c) := fun c hc =>
        charDigit_of_digitOf_lt hb16 (hdigits c hc)
      refine ⟨?_, ?_⟩
      · intro v hv
        obtain ⟨-, -, rfl⟩ := split_of_denotes hv
        rw [hrun, digitsValue]
        congr 3
        exact List.map_congr_left fun c hc => by rw [hvalue c hc]; rfl
      · rintro ⟨c, hc, hnot⟩
        exact absurd ⟨_, hvalue c hc, hdigits c hc⟩ hnot
  · rw [if_neg hlen] at hrun ⊢
    constructor
    · intro hread
      by_contra hnumeral
      push Not at hnumeral
      have := hread.numeral _ (denotes_of_split hnumeral.1 hnumeral.2)
      rw [hrun] at this
      cases this
    · intro hnot
      refine ⟨?_, ?_⟩
      · intro v hv
        obtain ⟨hne, hall, -⟩ := split_of_denotes hv
        exact absurd hall (hnot.resolve_left hne)
      · intro _ v hv
        rw [hrun] at hv
        cases hv

omit h

/-- A decimal numeral and a hexadecimal one with a sign. -/
theorem readRight_numerals : ReadRight Ipp.reference ['9', '0', '7'] ∧
    ReadRight Ipp.reference ['-', '0', 'X', '1', 'f'] :=
  ⟨(readRight_iff Ipp.reference_lawful _).mpr (by decide),
    (readRight_iff Ipp.reference_lawful _).mpr (by decide)⟩

/-- The numeral `0xA` gives 16, and `1a` a number. -/
theorem not_readRight_capital : ofString Ipp.reference ['0', 'x', 'A'] = .ok 16 ∧
    Denotes ['0', 'x', 'A'] 10 ∧ ¬ ReadRight Ipp.reference ['0', 'x', 'A'] ∧
    ofString Ipp.reference ['1', 'a'] = .ok 20 ∧ ¬ ReadRight Ipp.reference ['1', 'a'] := by
  have hcapital : ofString Ipp.reference ['0', 'x', 'A'] = .ok 16 := by decide
  have hletter : ofString Ipp.reference ['1', 'a'] = .ok 20 := by decide
  have hten : Denotes ['0', 'x', 'A'] 10 :=
    .hexadecimal false 'x' (.inl rfl) ['A'] (by decide) (by decide)
  refine ⟨hcapital, hten, fun hread => ?_, hletter, fun hread => ?_⟩
  · have := hread.numeral _ hten
    rw [hcapital] at this
    cases this
  · exact hread.other ⟨'a', by decide, by decide⟩ _ hletter

/-! ### What is printed -/

/-- The character of a digit. -/
def hexChar (d : ℕ) : Char := hexDigitList.getD d '0'

theorem hexChar_facts : ∀ d < 16, digitOf (hexChar d) = d ∧ hexChar d ∈ hexDigitList ∧
    (hexChar d = '0' ↔ d = 0) := by
  decide

/-- The digits of a word from the top. -/
theorem map_hexDigit (w : ℕ) : (List.range 8).reverse.map (hexDigit w)
    = ((Digits.fixed 16 8 w).map hexChar).reverse := by
  rw [Digits.fixed, List.map_map, List.map_reverse]
  congr 1
  refine List.map_congr_left fun nd _ => ?_
  have hnibble : (w >>> (nd * 4)) &&& 0xF = w / 16 ^ nd % 16 := by
    rw [show (0xF : ℕ) = 2 ^ 4 - 1 by rfl, Nat.and_two_pow_sub_one_eq_mod,
      Nat.shiftRight_eq_div_pow, show (16 : ℕ) = 2 ^ 4 by rfl, ← pow_mul, Nat.mul_comm 4]
  show hexDigitList.getD ((w >>> (nd * 4)) &&& 0xF) '0' = hexChar (w / 16 ^ nd % 16)
  rw [hnibble]
  rfl

/-- The digits of all words from the top. -/
theorem flatMap_hexDigit (x : ℤ) :
    ((num2vec x).reverse.flatMap fun w => (List.range 8).reverse.map (hexDigit w))
      = ((Digits.fixed 16 (8 * bitsizeWord (bitLen x)) x.natAbs).reverse).map hexChar := by
  have hword : (fun w => (List.range 8).reverse.map (hexDigit w))
      = List.reverse ∘ fun w => (Digits.fixed 16 8 w).map hexChar := by
    funext w
    exact map_hexDigit w
  rw [hword, ← List.reverse_flatMap, ← List.map_flatMap, num2vec, show (2 : ℕ) ^ 32 = 16 ^ 8 by rfl,
    Digits.flatMap_fixed, List.map_reverse]

/-- The loop appends the characters from the first that is not `0` on. -/
theorem foldl_hexPush (cs : CString) (seen : Bool) (s : String) :
    (cs.foldl hexPush (seen, s)).2.toList
      = s.toList ++ if seen then cs else cs.dropWhile (· = '0') := by
  induction cs generalizing seen s with
  | nil => cases seen <;> simp
  | cons c rest ih =>
      rw [List.foldl_cons, hexPush]
      by_cases hc : c = '0'
      · cases seen with
        | true =>
            rw [if_pos (Or.inr rfl), ih, String.toList_push]
            simp
        | false =>
            rw [if_neg (by simp [hc]), ih]
            simp [hc]
      · rw [if_pos (Or.inl hc), ih, String.toList_push]
        cases seen <;> simp [hc]

/-- Dropping the characters `0` drops the zeros. -/
theorem dropWhile_map_hexChar {ds : List ℕ} (hlt : ∀ d ∈ ds, d < 16) :
    (ds.map hexChar).dropWhile (· = '0') = (ds.dropWhile (· = 0)).map hexChar := by
  induction ds with
  | nil => rfl
  | cons d rest ih =>
      obtain ⟨-, -, hzero⟩ := hexChar_facts d (hlt d (by simp))
      by_cases hd : d = 0
      · rw [List.map_cons, List.dropWhile_cons_of_pos (by simpa using hzero.mpr hd),
          List.dropWhile_cons_of_pos (by simpa using hd), ih fun e he => hlt e (by simp [he])]
      · rw [List.map_cons, List.dropWhile_cons_of_neg (by simpa [hzero] using hd),
          List.dropWhile_cons_of_neg (by simpa using hd), List.map_cons]

/-- The printed digits of a number. -/
def hexBody (x : ℤ) : CString := (Nat.digits 16 x.natAbs).reverse.map hexChar

theorem toList_num2hex (x : ℤ) :
    (num2hex x).toList = signText (decide (x < 0)) ++ '0' :: 'x' :: hexBody x := by
  have hv : x.natAbs < 16 ^ (8 * bitsizeWord (bitLen x)) := by
    have := natAbs_lt_pow_words x
    rwa [show (2 : ℕ) ^ 32 = 16 ^ 8 by rfl, ← pow_mul] at this
  have hdrop : ((Digits.fixed 16 (8 * bitsizeWord (bitLen x)) x.natAbs).reverse.map
      hexChar).dropWhile (· = '0') = hexBody x := by
    rw [dropWhile_map_hexChar, hexBody, ← Numeral.dropWhile_reverse_fixed (by decide) hv]
    intro d hd
    exact Digits.lt_of_mem_fixed (by decide) (List.mem_reverse.mp hd)
  have hfold := foldl_hexPush ((Digits.fixed 16 (8 * bitsizeWord (bitLen x)) x.natAbs).reverse.map
    hexChar) false (if x < 0 then "-0x" else "0x")
  rw [if_neg Bool.false_ne_true, hdrop, ← flatMap_hexDigit] at hfold
  rw [num2hex, hfold]
  by_cases hx : x < 0 <;> simp [hx, signText]

/-! ### The round trip of the printed text -/

/-- An optional minus, the prefix, and digits: at least one, no zero in front of another, and
no minus in front of a zero. -/
def CanonicalHex (s : CString) : Prop :=
  ∃ neg ds, s = signText neg ++ '0' :: 'x' :: ds ∧ ds ≠ [] ∧ (∀ c ∈ ds, c ∈ hexDigitList) ∧
    (ds.head? = some '0' → ds = ['0'] ∧ neg = false)

/-- What is printed is canonical, the constructor makes its buffer of at least one word, and
it makes the number again. -/
structure HexRoundTrip (ipp : Ipp) (x : ℤ) : Prop where
  canonical : CanonicalHex (num2hex x).toList
  created : 1 ≤ (split (num2hex x).toList).dataLen
  parsed : ofString ipp (num2hex x).toList = .ok x

/-- `dataLen` of a string of `k` hexadecimal digits -/
def hexDataLen (k : ℕ) : ℤ := (Int.bmod (k + 7) (2 ^ 32)).tdiv 8

/-- Strings of any length that occurs have a buffer. -/
theorem one_le_hexDataLen {k : ℕ} (hpos : 0 < k) (hk : k < 2 ^ 31 - 7) : 1 ≤ hexDataLen k := by
  unfold hexDataLen
  rw [Int.bmod_eq_of_le (by omega) (by omega), Int.tdiv_eq_ediv_of_nonneg (by omega)]
  omega

theorem split_num2hex (x : ℤ) :
    split (num2hex x).toList = ⟨decide (x < 0), 0x10, hexBody x⟩ := by
  rw [toList_num2hex]
  exact split_hexadecimal _ (.inl rfl) _

theorem dataLen_num2hex (x : ℤ) :
    (split (num2hex x).toList).dataLen = hexDataLen (Nat.digits 16 x.natAbs).length := by
  have hlen : (hexBody x).length = (Nat.digits 16 x.natAbs).length := by simp [hexBody]
  simp only [split_num2hex, Prefixed.dataLen, if_true, hlen]
  rfl

theorem digit_lt {x : ℤ} : ∀ d ∈ (Nat.digits 16 x.natAbs).reverse, d < 16 := by
  intro d hd
  exact Nat.digits_lt_base (by decide) (List.mem_reverse.mp hd)

theorem map_digitOf_hexBody (x : ℤ) :
    (hexBody x).map digitOf = (Nat.digits 16 x.natAbs).reverse := by
  rw [hexBody, List.map_map, List.map_congr_left fun d hd => ?_, List.map_id]
  exact (hexChar_facts d (digit_lt d hd)).1

theorem signed_natAbs (x : ℤ) : signed (decide (x < 0)) x.natAbs = x := by
  unfold signed
  by_cases hx : x < 0
  · rw [if_pos (by simpa using hx)]
    omega
  · rw [if_neg (by simpa using hx)]
    omega

theorem canonical_num2hex {x : ℤ} (hx : x ≠ 0) : CanonicalHex (num2hex x).toList := by
  have hne : Nat.digits 16 x.natAbs ≠ [] :=
    Nat.digits_ne_nil_iff_ne_zero.mpr (Int.natAbs_ne_zero.mpr hx)
  obtain ⟨d, rest, hrev⟩ := List.exists_cons_of_ne_nil (List.reverse_ne_nil_iff.mpr hne)
  have htop : d ≠ 0 := by
    have hlast := Nat.getLast_digit_ne_zero 16 (Int.natAbs_ne_zero.mpr hx)
    rw [← List.head_reverse (List.reverse_ne_nil_iff.mpr hne)] at hlast
    simpa only [hrev, List.head_cons] using hlast
  have hd := hexChar_facts d (digit_lt (x := x) d (by rw [hrev]; exact List.mem_cons_self))
  refine ⟨_, hexBody x, toList_num2hex x, ?_, ?_, ?_⟩
  · simp [hexBody, hrev]
  · intro c hc
    obtain ⟨e, he, rfl⟩ := List.mem_map.mp hc
    exact (hexChar_facts e (digit_lt e he)).2.1
  · intro hhead
    rw [hexBody, hrev, List.map_cons, List.head?_cons, Option.some.injEq, hd.2.2] at hhead
    exact absurd hhead htop

include h

theorem ofString_num2hex {x : ℤ} (hlen : 1 ≤ hexDataLen (Nat.digits 16 x.natAbs).length) :
    ofString ipp (num2hex x).toList = .ok x := by
  rw [ofString_eq h, dataLen_num2hex, if_pos hlen, split_num2hex]
  have hvalue : Numeral.horner (0x10 : UInt32).toNat ((hexBody x).map digitOf) = x.natAbs := by
    rw [map_digitOf_hexBody, Numeral.horner_eq_ofDigits, List.reverse_reverse]
    exact Nat.ofDigits_digits 16 _
  rw [hvalue, signed_natAbs]

/-- **Printing and reading are inverse for every number but zero** whose count of digits is an
`int`. -/
theorem hexRoundTrip_iff (x : ℤ) :
    HexRoundTrip ipp x ↔ x ≠ 0 ∧ 1 ≤ hexDataLen (Nat.digits 16 x.natAbs).length := by
  constructor
  · intro htrip
    have hlen := htrip.created
    rw [dataLen_num2hex] at hlen
    refine ⟨?_, hlen⟩
    rintro rfl
    exact absurd hlen (by decide)
  · rintro ⟨hx, hlen⟩
    exact ⟨canonical_num2hex hx, by rwa [dataLen_num2hex], ofString_num2hex h hlen⟩

omit h

/-- A negative number with a zero word inside. -/
theorem hexRoundTrip_neg : HexRoundTrip Ipp.reference (-(5 * 2 ^ 64 + 7)) :=
  (hexRoundTrip_iff Ipp.reference_lawful _).mpr
    ⟨by decide, one_le_hexDataLen (by norm_num) (by norm_num)⟩

/-- Zero is printed without a digit, and the constructor asks for a number of no words. -/
theorem not_hexRoundTrip_zero : num2hex 0 = "0x" ∧
    ofString Ipp.reference (num2hex 0).toList = .error (.undefined "number of no words") ∧
    ¬ HexRoundTrip Ipp.reference 0 := by
  have htext : num2hex 0 = "0x" := by decide
  have hparse : ofString Ipp.reference (num2hex 0).toList
      = .error (.undefined "number of no words") := by
    rw [htext]
    decide
  refine ⟨htext, hparse, fun htrip => ?_⟩
  have := htrip.parsed
  rw [hparse] at this
  cases this

end Ipcl.BigNumber
