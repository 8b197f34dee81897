/-
The form of the keys of the DJN mode.

The mode wants both primes to be 3 modulo 4.  The loop that draws `q` tests the bit of
`p`, which the loop before it has already seen, so any other prime ends it.  The test of
`gcd(p - 1, q - 1)` does not make up for it: `p - 1` is twice an odd number, and then a
`q` that is 1 modulo 4 has the same greatest common divisor 2 as one that is 3.

What the loops return is the first pair that passes the last tests, among the pairs they
cut the sequence of primes into.
-/
import Ipcl.Proofs.KeyGen

namespace Ipcl

open BigNumber Supply

/-! ### The pairs of a sequence -/

/-- An odd prime. -/
def OddPrime (x : ℤ) : Prop := ∃ a : ℕ, x = a ∧ a.Prime ∧ a ≠ 2

theorem OddPrime.two_lt {x : ℤ} (hx : OddPrime x) : 2 < x := by
  obtain ⟨a, rfl, ha, ha2⟩ := hx
  have := ha.two_le
  omega

theorem OddPrime.odd {x : ℤ} (hx : OddPrime x) : x % 2 = 1 := by
  obtain ⟨a, rfl, ha, ha2⟩ := hx
  have := ha.eq_two_or_odd.resolve_left ha2
  omega

/-- A prime that is 3 modulo 4, and the next one after it that is not the same. -/
def primePairs : Option ℤ → List ℤ → List (ℤ × ℤ)
  | _, [] => []
  | none, x :: rest => if x % 4 = 3 then primePairs (some x) rest else primePairs none rest
  | some p, x :: rest =>
      if x = p then primePairs (some p) rest else (p, x) :: primePairs none rest

/-- The tests a pair has to pass. -/
def PairAccepted (nLength refDist : ℤ) (r : ℤ × ℤ) : Prop :=
  Int.gcd (r.1 - 1) (r.2 - 1) = 2 ∧ (bitLen (r.1 * r.2) : ℤ) = nLength ∧ refDist < |r.1 - r.2|

instance (nLength refDist : ℤ) (r : ℤ × ℤ) : Decidable (PairAccepted nLength refDist r) := by
  unfold PairAccepted
  infer_instance

/-- Bit 1 of an odd prime tells its residue modulo 4. -/
theorem testBit_one {x : ℤ} (hx : OddPrime x) : testBit x 1 = .ok (decide (x % 4 = 3)) := by
  have h2 := hx.two_lt
  have hodd := hx.odd
  have hlen : ¬ 1 > bitLen x := by
    have := bitLen_pos x
    omega
  have hroom : 1 / 32 < 2 * roomOf (bitsizeWord (bitLen x)) := by
    have := bitLen_pos x
    unfold roomOf bitsizeWord
    omega
  obtain ⟨a, rfl⟩ := Int.eq_ofNat_of_zero_le (by omega : 0 ≤ x)
  rw [testBit, if_neg hlen, if_pos hroom]
  refine congrArg Except.ok (decide_eq_decide.mpr ?_)
  simp only [Int.natAbs_natCast, Nat.and_one_is_mod, Nat.shiftRight_eq_div_pow]
  norm_num
  omega

section Loops

variable {ipp : Ipp} (hl : ipp.Lawful) {nLength refDist : ℤ}

/-- What a draw from a sequence that has run out or not comes to. -/
def drawn (xs : List ℤ) : Result (ℤ × List ℤ) :=
  match xs with
  | [] => .error .exhausted
  | x :: rest => .ok (x, rest)

/-- The first loop takes the first prime that is 3 modulo 4. -/
theorem getDJNP_eq : ∀ (fuel : ℕ) (xs : List ℤ), xs.length < fuel → (∀ x ∈ xs, OddPrime x) →
    getDJNP nLength fuel xs = drawn (xs.dropWhile fun x => x % 4 ≠ 3) := by
  intro fuel
  induction fuel with
  | zero => intro xs hlen _; cases hlen
  | succ fuel ih =>
      intro xs hlen hprimes
      cases xs with
      | nil => rfl
      | cons x rest =>
          have hx : OddPrime x := hprimes x (by simp)
          have hstep : getDJNP nLength (fuel + 1) (x :: rest)
              = (if x % 4 = 3 then .ok (x, rest) else getDJNP nLength fuel rest) := by
            show ((liftM (testBit x 1) : PrimeGen Bool) >>= fun bit =>
              if !bit then getDJNP nLength fuel else pure x) rest = _
            rw [testBit_one hx]
            by_cases hx3 : x % 4 = 3
            · simp only [hx3, decide_true, if_true]
              rfl
            · simp only [hx3, decide_false, if_false]
              rfl
          rw [hstep]
          by_cases hx3 : x % 4 = 3
          · rw [if_pos hx3, List.dropWhile_cons_of_neg (by simpa using hx3)]
            rfl
          · rw [if_neg hx3, List.dropWhile_cons_of_pos (by simpa using hx3)]
            exact ih rest (by simpa using hlen) fun y hy => hprimes y (by simp [hy])

include hl

/-- The second loop takes the next prime that differs from the first, whatever it is. -/
theorem getDJNQ_eq {p : ℤ} (hp : OddPrime p) (hp3 : p % 4 = 3) : ∀ (fuel : ℕ) (xs : List ℤ),
    xs.length < fuel → (∀ x ∈ xs, OddPrime x) →
    getDJNQ ipp nLength p fuel xs = drawn (xs.dropWhile fun x => x = p) := by
  intro fuel
  induction fuel with
  | zero => intro xs hlen _; cases hlen
  | succ fuel ih =>
      intro xs hlen hprimes
      cases xs with
      | nil => rfl
      | cons x rest =>
          have hx : OddPrime x := hprimes x (by simp)
          have heq : eq ipp x p = decide (x = p) := by
            have hx2 := hx.two_lt
            have hp2 := hp.two_lt
            exact eq_of_nonneg hl (by omega) (by omega)
          have hstep : getDJNQ ipp nLength p (fuel + 1) (x :: rest)
              = (if x = p then getDJNQ ipp nLength p fuel rest else .ok (x, rest)) := by
            show (if eq ipp x p then getDJNQ ipp nLength p fuel else
              ((liftM (testBit p 1) : PrimeGen Bool) >>= fun bit =>
                if !bit then getDJNQ ipp nLength p fuel else pure x)) rest = _
            rw [heq, testBit_one hp, hp3]
            by_cases hxp : x = p
            · simp only [hxp, decide_true, if_true]
            · simp only [hxp, decide_false, if_false]
              rfl
          rw [hstep]
          by_cases hxp : x = p
          · rw [if_pos hxp, List.dropWhile_cons_of_pos (by simpa using hxp)]
            exact ih rest (by simpa using hlen) fun y hy => hprimes y (by simp [hy])
          · rw [if_neg hxp, List.dropWhile_cons_of_neg (by simpa using hxp)]
            rfl

/-- The exit condition of the outer loop is the test of the pair. -/
theorem exit_iff {p q : ℤ} (hp : OddPrime p) (hq : OddPrime q) (hd : 0 ≤ refDist) :
    (compare ipp (BigNumber.gcd ipp (sub32 ipp p 1) (sub32 ipp q 1)) 2 ≠ 0 ∨
      bitSize ipp (mul ipp p q) ≠ nLength ∨ isClosePrimeBN ipp p q refDist = true) ↔
    ¬ PairAccepted nLength refDist (p, q) := by
  have hp2 := hp.two_lt
  have hq2 := hq.two_lt
  have hn : p * q ≠ 0 := mul_ne_zero (by omega) (by omega)
  have hgcd : BigNumber.gcd ipp (sub32 ipp p 1) (sub32 ipp q 1) = Int.gcd (p - 1) (q - 1) := by
    rw [PrivateKey.sub32_one hl (by omega), PrivateKey.sub32_one hl (by omega),
      gcd_eq hl (by omega) (by omega)]
  have hclose : isClosePrimeBN ipp p q refDist = true ↔ ¬ refDist < |p - q| := by
    rw [← isClosePrimeBN_eq_false hl (by omega) (by omega) hd, Bool.not_eq_false]
  have hcmp : compare ipp (Int.gcd (p - 1) (q - 1) : ℤ) 2 ≠ 0 ↔
      Int.gcd (p - 1) (q - 1) ≠ 2 := by
    rw [compare_of_nonneg hl (by omega) (by omega)]
    split_ifs <;> omega
  rw [hgcd, hcmp, mul_eq hl, bitSize_eq hl hn, hclose]
  unfold PairAccepted
  tauto

omit hl in
theorem primePairs_none (xs : List ℤ) :
    primePairs none xs = match xs.dropWhile fun x => x % 4 ≠ 3 with
      | [] => []
      | p :: rest => primePairs (some p) rest := by
  induction xs with
  | nil => rfl
  | cons x rest ih =>
      rw [primePairs]
      by_cases hx3 : x % 4 = 3
      · rw [if_pos hx3, List.dropWhile_cons_of_neg (by simpa using hx3)]
      · rw [if_neg hx3, List.dropWhile_cons_of_pos (by simpa using hx3)]
        exact ih

omit hl in
theorem primePairs_some (p : ℤ) (xs : List ℤ) :
    primePairs (some p) xs = match xs.dropWhile fun x => x = p with
      | [] => []
      | q :: rest => (p, q) :: primePairs none rest := by
  induction xs with
  | nil => rfl
  | cons x rest ih =>
      rw [primePairs]
      by_cases hxp : x = p
      · rw [if_pos hxp, List.dropWhile_cons_of_pos (by simpa using hxp)]
        exact ih
      · rw [if_neg hxp, List.dropWhile_cons_of_neg (by simpa using hxp)]

/-- The pair the outer loop leaves with, with the product. -/
def leaves (r : Option (ℤ × ℤ)) : Result (ℤ × ℤ × ℤ) :=
  match r with
  | none => .error .exhausted
  | some r => .ok (r.1, r.2, r.1 * r.2)

/-- The loop returns the first pair that passes the tests. -/
theorem getDJNLoop_eq (nLength : ℤ) (hd : 0 ≤ refDist) : ∀ (fuel : ℕ) (xs : List ℤ),
    xs.length < fuel → (∀ x ∈ xs, OddPrime x) →
    (getDJNLoop ipp nLength refDist fuel xs).map Prod.fst
      = leaves ((primePairs none xs).find? fun r => PairAccepted nLength refDist r) := by
  intro fuel
  induction fuel with
  | zero => intro xs hlen _; cases hlen
  | succ fuel ih =>
      intro xs hlen hprimes
      have hrun : getDJNLoop ipp nLength refDist (fuel + 1) xs
          = (getDJNP nLength (xs.length + 1) xs >>= fun r =>
              getDJNQ ipp nLength r.1 (r.2.length + 1) r.2 >>= fun u =>
                if compare ipp (BigNumber.gcd ipp (sub32 ipp r.1 1) (sub32 ipp u.1 1)) 2 ≠ 0 ∨
                    bitSize ipp (mul ipp r.1 u.1) ≠ nLength ∨
                    isClosePrimeBN ipp r.1 u.1 refDist = true then
                  getDJNLoop ipp nLength refDist fuel u.2
                else .ok ((r.1, u.1, mul ipp r.1 u.1), u.2)) := by
        rw [getDJNLoop]
        show (getDJNP nLength (xs.length + 1) xs >>= _) = _
        refine congrArg _ (funext fun r => ?_)
        show (getDJNQ ipp nLength r.1 (r.2.length + 1) r.2 >>= _) = _
        refine congrArg _ (funext fun u => ?_)
        show (if _ then _ else _ : PrimeGen (ℤ × ℤ × ℤ)) u.2 = _
        split_ifs <;> rfl
      rw [hrun, getDJNP_eq _ _ (Nat.lt_succ_self _) hprimes, primePairs_none]
      cases hdrop : xs.dropWhile fun x => x % 4 ≠ 3 with
      | nil => rfl
      | cons p rest =>
          have hsuffix : p :: rest <:+ xs := by
            rw [← hdrop]
            exact List.dropWhile_suffix _
          have hp : OddPrime p := hprimes p (hsuffix.subset (by simp))
          have hp3 : p % 4 = 3 := by
            have hhead := List.head?_dropWhile_not (fun x : ℤ => x % 4 ≠ 3) xs
            rw [hdrop] at hhead
            simpa using hhead
          have hrest : ∀ x ∈ rest, OddPrime x := fun x hx =>
            hprimes x (hsuffix.subset (by simp [hx]))
          simp only [drawn, Result.bind_ok]
          rw [getDJNQ_eq hl hp hp3 _ _ (Nat.lt_succ_self _) hrest, primePairs_some]
          cases hdropq : rest.dropWhile fun x => x = p with
          | nil => rfl
          | cons q rest' =>
              have hsuffixq : q :: rest' <:+ rest := by
                rw [← hdropq]
                exact List.dropWhile_suffix _
              have hq : OddPrime q := hrest q (hsuffixq.subset (by simp))
              simp only [drawn, Result.bind_ok]
              by_cases hacc : PairAccepted nLength refDist (p, q)
              · rw [if_neg (fun hc => (exit_iff hl hp hq hd).mp hc hacc),
                  List.find?_cons_of_pos (by simpa using hacc), mul_eq hl]
                rfl
              · have hlt : rest'.length < fuel := by
                  have h1 := hsuffix.length_le
                  have h2 := hsuffixq.length_le
                  simp only [List.length_cons] at h1 h2
                  omega
                rw [if_pos ((exit_iff hl hp hq hd).mpr hacc),
                  List.find?_cons_of_neg (by simpa using hacc)]
                exact ih rest' hlt fun x hx => hrest x (hsuffixq.subset (by simp [hx]))

end Loops

/-! ### The form of the primes -/

/-- What the mode wants of the primes it gets. -/
def DjnForm (ipp : Ipp) (nLength : ℤ) (supply : List ℤ) : Prop :=
  ∀ p q n rest, getDJNBN ipp nLength (getPrimeDistance nLength) supply = .ok ((p, q, n), rest) →
    p % 4 = 3 ∧ q % 4 = 3 ∧ Int.gcd (p - 1) (q - 1) = 2

/-- No pair with the wrong `q` passes the tests before another pair does. -/
def NoWrongPair (nLength : ℤ) (supply : List ℤ) : Prop :=
  ∀ r, (primePairs none supply).find? (fun r => PairAccepted nLength (getPrimeDistance nLength) r)
    = some r → r.2 % 4 ≠ 1

/-- The members of the pairs are members of the sequence, and the first one is 3 modulo 4. -/
theorem mem_primePairs {xs : List ℤ} : ∀ {o : Option ℤ} {r : ℤ × ℤ}, r ∈ primePairs o xs →
    (r.1 % 4 = 3 ∧ r.1 ∈ xs ∨ o = some r.1) ∧ r.2 ∈ xs := by
  induction xs with
  | nil =>
      intro o r hr
      cases o <;> cases hr
  | cons x rest ih =>
      intro o r hr
      cases o with
      | none =>
          rw [primePairs] at hr
          by_cases hx3 : x % 4 = 3
          · rw [if_pos hx3] at hr
            obtain ⟨hfst, hsnd⟩ := ih hr
            refine ⟨.inl ?_, List.mem_cons_of_mem x hsnd⟩
            rcases hfst with ⟨h3, hmem⟩ | heq
            · exact ⟨h3, List.mem_cons_of_mem x hmem⟩
            · rw [← Option.some.inj heq]
              exact ⟨hx3, List.mem_cons_self⟩
          · rw [if_neg hx3] at hr
            obtain ⟨hfst, hsnd⟩ := ih hr
            refine ⟨.inl ?_, List.mem_cons_of_mem x hsnd⟩
            rcases hfst with ⟨h3, hmem⟩ | heq
            · exact ⟨h3, List.mem_cons_of_mem x hmem⟩
            · cases heq
      | some p =>
          rw [primePairs] at hr
          by_cases hxp : x = p
          · rw [if_pos hxp] at hr
            obtain ⟨hfst, hsnd⟩ := ih hr
            refine ⟨?_, List.mem_cons_of_mem x hsnd⟩
            exact hfst.imp (fun ⟨h3, hmem⟩ => ⟨h3, List.mem_cons_of_mem x hmem⟩) id
          · rw [if_neg hxp] at hr
            rcases List.mem_cons.mp hr with rfl | hr
            · exact ⟨.inr rfl, List.mem_cons_self⟩
            · obtain ⟨hfst, hsnd⟩ := ih hr
              refine ⟨.inl ?_, List.mem_cons_of_mem x hsnd⟩
              rcases hfst with ⟨h3, hmem⟩ | heq
              · exact ⟨h3, List.mem_cons_of_mem x hmem⟩
              · cases heq

section

variable {ipp : Ipp} (hl : ipp.Lawful)
include hl

/-- A run that ends returns the first accepted pair, and the first accepted pair is what
some run returns. -/
theorem getDJNBN_ok_iff {nLength : ℤ} (hd : 0 ≤ getPrimeDistance nLength) {supply : List ℤ}
    (hprimes : ∀ x ∈ supply, OddPrime x) {p q n : ℤ} :
    (∃ rest, getDJNBN ipp nLength (getPrimeDistance nLength) supply = .ok ((p, q, n), rest)) ↔
      (primePairs none supply).find?
        (fun r => PairAccepted nLength (getPrimeDistance nLength) r) = some (p, q) ∧ n = p * q := by
  have hloop := getDJNLoop_eq hl nLength hd (supply.length + 1) supply
    (Nat.lt_succ_self _) hprimes
  have hrun : getDJNBN ipp nLength (getPrimeDistance nLength) supply
      = getDJNLoop ipp nLength (getPrimeDistance nLength) (supply.length + 1) supply := rfl
  rw [hrun]
  cases hfind : (primePairs none supply).find?
      (fun r => PairAccepted nLength (getPrimeDistance nLength) r) with
  | none =>
      rw [hfind] at hloop
      cases hres : getDJNLoop ipp nLength (getPrimeDistance nLength) (supply.length + 1) supply with
      | error e => simp
      | ok r =>
          rw [hres] at hloop
          cases hloop
  | some r =>
      rw [hfind] at hloop
      cases hres : getDJNLoop ipp nLength (getPrimeDistance nLength) (supply.length + 1) supply with
      | error e =>
          rw [hres] at hloop
          cases hloop
      | ok u =>
          rw [hres] at hloop
          have hu : u.1 = (r.1, r.2, r.1 * r.2) := Except.ok.inj hloop
          constructor
          · intro hrun
            obtain ⟨rest, hok⟩ := hrun
            rw [Except.ok.inj hok] at hu
            obtain ⟨rfl, rfl, rfl⟩ : p = r.1 ∧ q = r.2 ∧ n = r.1 * r.2 := by simpa using hu
            exact ⟨rfl, rfl⟩
          · intro hfirst
            obtain ⟨hr, rfl⟩ := hfirst
            rw [Option.some.inj hr] at hu
            exact ⟨u.2, by rw [← hu]⟩

/-- **The primes have the form of the mode exactly when no wrong pair comes first.** -/
theorem djn_form_iff {nLength : ℤ} {supply : List ℤ} (hprimes : ∀ x ∈ supply, OddPrime x) :
    DjnForm ipp nLength supply ↔ NoWrongPair nLength supply := by
  have hd : 0 ≤ getPrimeDistance nLength := by
    unfold getPrimeDistance
    exact Int.natCast_nonneg _
  constructor
  · intro hform r hr
    obtain ⟨rest, hrun⟩ := (getDJNBN_ok_iff hl hd hprimes).mpr ⟨hr, rfl⟩
    obtain ⟨-, hq, -⟩ := hform _ _ _ _ hrun
    omega
  · intro hpairs p q n rest hrun
    obtain ⟨hfind, -⟩ := (getDJNBN_ok_iff hl hd hprimes).mp ⟨rest, hrun⟩
    obtain ⟨hfst, hsnd⟩ := mem_primePairs (List.mem_of_find?_eq_some hfind)
    have hacc := List.find?_some hfind
    have hp3 : p % 4 = 3 := by
      rcases hfst with ⟨h3, -⟩ | hc
      · exact h3
      · cases hc
    have hq1 : q % 4 ≠ 1 := hpairs _ hfind
    have hqodd := (hprimes q hsnd).odd
    exact ⟨hp3, by omega, (of_decide_eq_true hacc).1⟩

end

/-! ### Two runs -/

theorem prime_three_mod_four : Nat.Prime 1196372689100546188070087337007 :=
  Primality.prime_of_generator (c := 2 * 127) (r := 3) (m := 57) (a := 3) Nat.prime_three
    (Primality.mem_of_dvd_two_mul (by norm_num)) (by decide) (by decide +kernel)
    (by decide +kernel) (by decide +kernel)

theorem prime_three_mod_four' : Nat.Prime 745785655453801155090332031251 :=
  Primality.prime_of_generator (c := 2 * 41) (r := 5) (m := 39) (a := 2) Nat.prime_five
    (Primality.mem_of_dvd_two_mul (by norm_num)) (by decide) (by decide +kernel)
    (by decide +kernel) (by decide +kernel)

/-- A pair of the right form. -/
theorem djn_form_two_hundred : DjnForm Ipp.reference 200
    [1196372689100546188070087337007, 745785655453801155090332031251] := by
  have hprimes : ∀ x ∈ ([1196372689100546188070087337007, 745785655453801155090332031251] : List ℤ),
      OddPrime x := by
    intro x hx
    rcases List.mem_pair.mp hx with rfl | rfl
    · exact ⟨1196372689100546188070087337007, rfl, prime_three_mod_four, by decide⟩
    · exact ⟨745785655453801155090332031251, rfl, prime_three_mod_four', by decide⟩
  refine (djn_form_iff Ipp.reference_lawful hprimes).mpr fun r hr => ?_
  obtain ⟨-, hsnd⟩ := mem_primePairs (List.mem_of_find?_eq_some hr)
  rcases List.mem_pair.mp hsnd with h | h <;> rw [h] <;> decide

/-- A pair whose second prime is 1 modulo 4, and which passes all tests. -/
theorem not_djn_form_two_hundred : ¬ DjnForm Ipp.reference 200
    [1196372689100546188070087337007, 851702747028341629130597466113] := by
  intro hform
  have hrun : getDJNBN Ipp.reference 200 (getPrimeDistance 200)
      [1196372689100546188070087337007, 851702747028341629130597466113]
      = .ok ((1196372689100546188070087337007, 851702747028341629130597466113,
        1196372689100546188070087337007 * 851702747028341629130597466113), []) := by
    decide +kernel
  obtain ⟨-, hq, -⟩ := hform _ _ _ _ hrun
  exact absurd hq (by decide)

/-! ### The generator -/

/-- What the mode wants of the generator it derives from the draw `x`. -/
structure GeneratorForm (p q : ℕ) (x h hs : ℤ) : Prop where
  congr : h ≡ -x ^ 2 [ZMOD (p * q : ℕ)]
  jacobi : jacobiSym h (p * q) = 1
  nonresidue : ¬ IsSquare (h : ZMod p) ∧ ¬ IsSquare (h : ZMod q)
  power : hs = powMod h (p * q : ℕ) ((p * q : ℕ) * (p * q : ℕ))

/-- The negative of the square of a unit, modulo a prime that is 3 modulo 4. -/
theorem jacobi_neg_sq {p : ℕ} (hp3 : p % 4 = 3) {x h : ℤ} (hx : Int.gcd x p = 1)
    (hh : h ≡ -x ^ 2 [ZMOD p]) : jacobiSym h p = -1 := by
  have hodd : Odd p := Nat.odd_iff.mpr (by omega)
  rw [jacobiSym.mod_left' hh, jacobiSym.neg _ hodd, jacobiSym.sq_one' hx,
    ZMod.χ₄_nat_three_mod_four hp3, mul_one]

/-- A generator congruent to `-x ^ 2` has the form. -/
theorem GeneratorForm.of_congr {p q : ℕ} (hp : p.Prime) (hq : q.Prime) (hp3 : p % 4 = 3)
    (hq3 : q % 4 = 3) {x h : ℤ} (hx : Int.gcd x (p * q : ℕ) = 1)
    (hh : h ≡ -x ^ 2 [ZMOD (p * q : ℕ)]) :
    GeneratorForm p q x h (powMod h (p * q : ℕ) ((p * q : ℕ) * (p * q : ℕ))) := by
  have hgcd : ∀ {d : ℕ}, d ∣ p * q → Int.gcd x d = 1 := by
    intro d hd
    refine Nat.eq_one_of_dvd_one ?_
    rw [← hx]
    exact Int.gcd_dvd_gcd_of_dvd_right x (Int.natCast_dvd_natCast.mpr hd)
  have hmod : ∀ {d : ℕ}, d ∣ p * q → h ≡ -x ^ 2 [ZMOD d] := fun hd =>
    hh.of_dvd (Int.natCast_dvd_natCast.mpr hd)
  have hJp := jacobi_neg_sq hp3 (hgcd (Nat.dvd_mul_right p q)) (hmod (Nat.dvd_mul_right p q))
  have hJq := jacobi_neg_sq hq3 (hgcd (Nat.dvd_mul_left q p)) (hmod (Nat.dvd_mul_left q p))
  refine ⟨hh, ?_, ⟨?_, ?_⟩, rfl⟩
  · rw [jacobiSym.mul_right' h hp.ne_zero hq.ne_zero, hJp, hJq]
    rfl
  · exact ZMod.nonsquare_of_jacobiSym_eq_neg_one hJp
  · exact ZMod.nonsquare_of_jacobiSym_eq_neg_one hJq

namespace PublicKey

variable {ipp : Ipp} (hl : ipp.Lawful) {me : ModExp} (hme : me.OneExact)
include hl

/-- The literal `-1` becomes `2 ^ 32 - 1`, so that is what the square is multiplied by. -/
theorem djnGenerator_eq {n : ℕ} (hn : 0 < n) (x : ℤ) :
    djnGenerator ipp n x = (2 ^ 32 - 1) * x ^ 2 % n := by
  have hlit : ((0xFFFFFFFF : UInt32).toNat : ℤ) = 2 ^ 32 - 1 := rfl
  rw [djnGenerator, mod_eq hl _ (by omega), mul32_eq hl, mul_eq hl, hlit]
  congr 1
  ring

/-- It is never the negative of the square. -/
theorem not_generatorForm {p q : ℕ} (hp : p.Prime) (hq : q.Prime) (hp3 : p % 4 = 3) {x : ℤ}
    (hx : Int.gcd x (p * q : ℕ) = 1) (hs : ℤ) :
    ¬ GeneratorForm p q x (djnGenerator ipp (p * q : ℕ) x) hs := by
  intro hform
  have hn : 0 < p * q := Nat.mul_pos hp.pos hq.pos
  have hgen : (2 ^ 32 - 1) * x ^ 2 ≡ -x ^ 2 [ZMOD (p * q : ℕ)] := by
    have hcongr := hform.congr
    rw [djnGenerator_eq hl hn] at hcongr
    exact (Int.mod_modEq _ _).symm.trans hcongr
  have hdvd : ((p * q : ℕ) : ℤ) ∣ 2 ^ 32 * x ^ 2 := by
    have := hgen.symm.dvd
    rwa [show (2 ^ 32 - 1) * x ^ 2 - -x ^ 2 = 2 ^ 32 * x ^ 2 by ring] at this
  have hcop : IsCoprime ((p * q : ℕ) : ℤ) (x ^ 2) :=
    (Int.isCoprime_iff_gcd_eq_one.mpr hx).symm.pow_right
  have hpow : ((p : ℕ) : ℤ) ∣ 2 ^ 32 := by
    refine dvd_trans (Int.natCast_dvd_natCast.mpr (Nat.dvd_mul_right p q)) ?_
    exact hcop.dvd_of_dvd_mul_right hdvd
  have htwo : p ∣ 2 := hp.dvd_of_dvd_pow (by exact_mod_cast hpow : p ∣ 2 ^ 32)
  have := Nat.le_of_dvd (by decide) htwo
  have := hp.two_le
  omega

include hme

/-- **No run of `enableDJN` derives the generator the mode wants.**  The draw it accepts is
multiplied by `2 ^ 32 - 1` where it should be negated. -/
theorem djn_generator_never {p q : ℕ} (hp : p.Prime) (hq : q.Prime) (hp3 : p % 4 = 3)
    (hq3 : q % 4 = 3) {pk pk' : PublicKey} (hpk : pk.For (p * q : ℕ)) {draws rest left : Draws}
    {x : ℤ} (hloop : enableDJNLoop ipp pk.n draws.length draws = .ok (x, left))
    (hrun : enableDJN ipp me pk draws = .ok (pk', rest)) (hx : Int.gcd x (p * q : ℕ) = 1) :
    pk'.hs = powMod (djnGenerator ipp pk.n x) (p * q : ℕ) ((p * q : ℕ) * (p * q : ℕ)) ∧
      djnGenerator ipp pk.n x ≡ (2 ^ 32 - 1) * x ^ 2 [ZMOD (p * q : ℕ)] ∧
      ¬ GeneratorForm p q x (djnGenerator ipp pk.n x) pk'.hs := by
  have hn : 0 < p * q := Nat.mul_pos hp.pos hq.pos
  have hodd : Odd (p * q) := (Nat.odd_iff.mpr (by omega)).mul (Nat.odd_iff.mpr (by omega))
  have hgen := djnGenerator_eq hl hn x
  have hadm : Admissible (djnGenerator ipp (p * q : ℕ) x) (p * q : ℕ)
      ((p * q : ℕ) * (p * q : ℕ)) := by
    rw [hgen]
    refine Admissible.mk (by exact_mod_cast hodd.mul hodd)
      (Int.emod_nonneg _ (by omega)) ?_ (by omega)
    have hlt := Int.emod_lt_of_pos ((2 ^ 32 - 1) * x ^ 2) (by omega : (0 : ℤ) < (p * q : ℕ))
    nlinarith
  have hhs : enableDJN ipp me pk draws = .ok ({ pk with
      hs := powMod (djnGenerator ipp pk.n x) (p * q : ℕ) ((p * q : ℕ) * (p * q : ℕ))
      randbits := pk.bits >>> (1 : ℕ)
      djnEnabled := true }, left) := by
    show (enableDJNLoop ipp pk.n draws.length draws >>= fun r =>
      (liftM (me.one (djnGenerator ipp pk.n r.1) pk.n pk.nsquare) : Rand ℤ) r.2 >>= fun u =>
        .ok ({ pk with
          hs := u.1
          randbits := pk.bits >>> (1 : ℕ)
          djnEnabled := true }, u.2)) = _
    rw [hloop, Result.bind_ok, hpk.n_eq, hpk.nsquare_eq, hme.one_exact _ _ _ hadm]
    rfl
  rw [hhs] at hrun
  obtain ⟨rfl, -⟩ := Prod.mk.inj (Except.ok.inj hrun)
  rw [hpk.n_eq]
  refine ⟨rfl, ?_, not_generatorForm hl hp hq hp3 hx _⟩
  rw [hgen]
  exact Int.mod_modEq _ _

omit hl hme

/-- The key 21 and the draw 2. -/
theorem djn_generator_never_twenty_one : ∃ pk' rest,
    enableDJN Ipp.reference ModExp.reference
      { isInitialized := true, n := 21, g := 22, nsquare := 441, bits := 5, dwords := 1, hs := 0,
        randbits := 0, djnEnabled := false, r := [], testv := false } [.ok 2] = .ok (pk', rest) ∧
    ¬ GeneratorForm 3 7 2 (djnGenerator Ipp.reference 21 2) pk'.hs := by
  obtain ⟨pk', rest, hrun⟩ : ∃ pk' rest, enableDJN Ipp.reference ModExp.reference
      { isInitialized := true, n := 21, g := 22, nsquare := 441, bits := 5, dwords := 1, hs := 0,
        randbits := 0, djnEnabled := false, r := [], testv := false } [.ok 2] = .ok (pk', rest) :=
    ⟨_, _, rfl⟩
  obtain ⟨-, -, hnot⟩ := djn_generator_never (p := 3) (q := 7) Ipp.reference_lawful
    ModExp.reference_exact Nat.prime_three (by norm_num) rfl rfl ⟨rfl, rfl, rfl⟩
    (rfl : enableDJNLoop Ipp.reference 21 1 [.ok 2] = .ok (2, [])) hrun (by decide)
  exact ⟨pk', rest, hrun, hnot⟩

/-- For the draw 2 the generator is 12, where the negative of the square is 17. -/
theorem djn_generator_wrong_twenty_one : djnGenerator Ipp.reference 21 2 = 12 ∧
    ∀ hs, ¬ GeneratorForm 3 7 2 (djnGenerator Ipp.reference 21 2) hs := by
  refine ⟨rfl, fun hs hform => ?_⟩
  have hcongr : (12 : ℤ) % 21 = -2 ^ 2 % 21 := hform.congr
  exact absurd hcongr (by decide)

end PublicKey

end Ipcl
