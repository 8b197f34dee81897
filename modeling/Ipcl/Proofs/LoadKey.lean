/-
Private keys from archives nobody vouches for.

`load` derives the fields of a key as the constructors do and leaves out their two tests.
Equal primes therefore make a key that is marked.  What stops other contents is one of the
three exponentiations, which refuse an even modulus, a negative exponent and a base that
is not below the modulus, and by then eleven fields have been overwritten; where the
object was marked, the mark is still there.

The sign is where this cannot be followed to the end.  For a number whose digits are all
ones the predecessor of its negative does not fit, and what the subtraction leaves is up to
the primitive.  It matters only when both numbers are like that.
-/
import Ipcl.ModExp.Engines
import Ipcl.Proofs.Archive
import Ipcl.Proofs.Subtract
import Ipcl.Proofs.Obfuscate

namespace Ipcl

open BigNumber

/-! ### The refusals of the exponentiation -/

/-- What is not admissible is refused with an exception. -/
def ModExp.Refuses (me : ModExp) : Prop :=
  ∀ b e m : ℤ, 0 ≤ m → ¬ Admissible b e m → Throws (me.one b e m)

theorem ModExp.reference_refuses : ModExp.reference.Refuses := by
  intro b e m _ hadm
  rw [Admissible.iff_checks] at hadm
  exact ⟨_, if_neg hadm⟩

/-- The statuses of the Montgomery calls for a modulus that is not odd, a number that is not
a residue and a negative exponent. -/
structure Mont.Checks (mont : Mont) : Prop where
  set_even : ∀ m, ¬ Odd m → mont.set m ≠ 0
  form_range : ∀ (m : ℕ) (b : ℤ), ¬ (0 ≤ b ∧ b < m) → (mont.form m b).1 ≠ 0
  exp_sign : ∀ (m : ℕ) (b e : ℤ), e < 0 → (mont.exp m b e).1 ≠ 0

/-- The exponentiation of the library fails with an exception only. -/
theorem throws_of_ippSBModExp {mont : Mont} {b e m : ℤ} {err : Error}
    (h : ippSBModExp mont b e m = .error err) : ∃ msg, err = .runtime msg := by
  rcases Result.of_bind_error h with h | ⟨_, -, h⟩
  · exact throws_of_errorCheck h
  rcases Result.of_bind_error h with h | ⟨_, -, h⟩
  · exact throws_of_errorCheck h
  rcases Result.of_bind_error h with h | ⟨_, -, h⟩
  · exact throws_of_errorCheck h
  rcases Result.of_bind_error h with h | ⟨_, -, h⟩
  · exact throws_of_errorCheck h
  rcases Result.of_bind_error h with h | ⟨_, -, h⟩
  · exact throws_of_errorCheck h
  rcases Result.of_bind_error h with h | ⟨_, -, h⟩
  · exact throws_of_errorCheck h
  · cases h

/-- With these statuses it refuses what is not admissible. -/
theorem ippSBModExp_refuses {mont : Mont} (hmont : mont.Checks) {b e m : ℤ} (hm : 0 ≤ m)
    (hadm : ¬ Admissible b e m) : Throws (ippSBModExp mont b e m) := by
  cases hrun : ippSBModExp mont b e m with
  | error err =>
      obtain ⟨msg, rfl⟩ := throws_of_ippSBModExp hrun
      exact ⟨msg, rfl⟩
  | ok r =>
      exfalso
      have hok := hrun
      obtain ⟨k, rfl⟩ := Int.eq_ofNat_of_zero_le hm
      obtain ⟨_, -, hok⟩ := Result.of_bind_ok hok
      obtain ⟨_, -, hok⟩ := Result.of_bind_ok hok
      obtain ⟨_, hset, hok⟩ := Result.of_bind_ok hok
      obtain ⟨_, hform, hok⟩ := Result.of_bind_ok hok
      obtain ⟨_, hexp, -⟩ := Result.of_bind_ok hok
      have hset' := of_decide_eq_true (ok_of_errorCheck hset)
      have hform' := of_decide_eq_true (ok_of_errorCheck hform)
      have hexp' := of_decide_eq_true (ok_of_errorCheck hexp)
      refine hadm ⟨?_, ?_, ?_, ?_⟩
      · by_contra hodd
        exact hmont.set_even _ (fun hc => hodd (by exact_mod_cast hc)) hset'
      · by_contra hb
        exact hmont.form_range _ b (fun hc => hb hc.1) hform'
      · by_contra hb
        exact hmont.form_range _ b (fun hc => hb hc.2) hform'
      · by_contra he
        exact hmont.exp_sign _ _ e (not_le.mp he) hexp'

namespace PrivateKey

variable {ipp : Ipp} {me : ModExp}

/-! ### Contents and objects -/

/-- An archive the layer can decode: the bit size, the words and signs of the two numbers, and
whatever follows. -/
def content (bits : ℤ) (ep eq : List ℕ × Bool) (rest : Archive) : Archive :=
  .int bits :: (numberItems ep ++ (numberItems eq ++ rest))

/-- What the constructors enforce: the product, the order, and the mark. -/
structure Enforced (p q : ℤ) (sk : PrivateKey) : Prop where
  product : sk.n = p * q
  smaller : sk.p = min p q
  larger : sk.q = max p q
  lt : sk.p < sk.q
  marked : sk.isInitialized = true

/-- The load throws and leaves no marked object that it has changed, or it leaves a key as the
constructors make it. -/
def LoadChecked (ipp : Ipp) (me : ModExp) (target : PrivateKey) (bits : ℤ)
    (ep eq : List ℕ × Bool) (rest : Archive) : Prop :=
  let out := Load.exec (load ipp me) (content bits ep eq rest) target
  (Throws out.1 ∧ (out.2.isInitialized = true → out.2 = target)) ∨
    (out.1 = .ok () ∧ Enforced (numberRead ep) (numberRead eq) out.2)

/-- The objects the class makes, as long as no load has thrown on a marked one. -/
inductive Made (ipp : Ipp) (me : ModExp) : PrivateKey → Prop
  | unmarked {sk : PrivateKey} : sk.isInitialized = false → Made ipp me sk
  | publicKey {pk : PublicKey} {p q : ℤ} {sk : PrivateKey} :
      ofPublicKey ipp me pk p q = .ok sk → Made ipp me sk
  | modulus {n p q : ℤ} {sk : PrivateKey} : ofModulus ipp me n p q = .ok sk → Made ipp me sk
  | enableCRT {sk : PrivateKey} (crt : Bool) : Made ipp me sk → Made ipp me (sk.enableCRT crt)
  | loaded {ar : Archive} {target sk : PrivateKey} :
      Load.exec (load ipp me) ar target = (.ok (), sk) → Made ipp me sk

/-! ### The derivation -/

/-- The numbers in the order in which the fields hold them. -/
def sortedBy (ipp : Ipp) (p q : ℤ) : ℤ × ℤ :=
  (if lt ipp q p then q else p, if lt ipp q p then p else q)

/-- The object after the first assignments of `load`. -/
def assigned (ipp : Ipp) (p q : ℤ) (sk : PrivateKey) : PrivateKey :=
  let s := sortedBy ipp p q
  { sk with n := mul ipp p q, nsquare := mul ipp (mul ipp p q) (mul ipp p q),
            g := add32 ipp (mul ipp p q) 1, enableCrt := true, p := s.1, q := s.2,
            pminusone := sub32 ipp s.1 1, qminusone := sub32 ipp s.2 1,
            psquare := mul ipp s.1 s.1, qsquare := mul ipp s.2 s.2,
            pinverse := inverseMul ipp s.2 s.1 }

/-- The exponentiations a key needs come out. -/
structure Derived (ipp : Ipp) (me : ModExp) (sk : PrivateKey) : Prop where
  hp : ∃ v, computeHfun ipp me sk.g sk.p sk.psquare = .ok v
  hq : ∃ v, computeHfun ipp me sk.g sk.q sk.qsquare = .ok v
  x : ∃ v, xArg ipp me sk.n sk.g sk.lambda sk.nsquare = .ok v

/-- What the body of `load` comes to: each exponentiation that fails leaves the fields
assigned before it. -/
theorem loadFields_cases (ipp : Ipp) (me : ModExp) (p q : ℤ) (ar : Archive) (target : PrivateKey) :
    let sk := assigned ipp p q target
    let lam := lcm ipp sk.pminusone sk.qminusone
    (∃ e, computeHfun ipp me sk.g sk.p sk.psquare = .error e ∧
      loadFields ipp me p q ar target = (.error e, sk)) ∨
    (∃ hp e, computeHfun ipp me sk.g sk.p sk.psquare = .ok hp ∧
      computeHfun ipp me sk.g sk.q sk.qsquare = .error e ∧
      loadFields ipp me p q ar target = (.error e, { sk with hp := hp })) ∨
    (∃ hp hq e, computeHfun ipp me sk.g sk.p sk.psquare = .ok hp ∧
      computeHfun ipp me sk.g sk.q sk.qsquare = .ok hq ∧
      xArg ipp me sk.n sk.g lam sk.nsquare = .error e ∧
      loadFields ipp me p q ar target
        = (.error e, { sk with hp := hp, hq := hq, lambda := lam })) ∨
    (∃ hp hq lx, computeHfun ipp me sk.g sk.p sk.psquare = .ok hp ∧
      computeHfun ipp me sk.g sk.q sk.qsquare = .ok hq ∧
      xArg ipp me sk.n sk.g lam sk.nsquare = .ok lx ∧
      loadFields ipp me p q ar target
        = (.ok ((), ar), { sk with hp := hp, hq := hq, lambda := lam,
                                   x := inverseMul ipp sk.n lx, isInitialized := true })) := by
  intro sk lam
  cases hhp : computeHfun ipp me sk.g sk.p sk.psquare with
  | error e =>
      refine .inl ⟨e, rfl, ?_⟩
      simp only [sk, assigned, sortedBy] at hhp
      simp only [loadFields, hhp]
      rfl
  | ok hp =>
      refine .inr ?_
      have hhp' := hhp
      simp only [sk, assigned, sortedBy] at hhp'
      cases hhq : computeHfun ipp me sk.g sk.q sk.qsquare with
      | error e =>
          refine .inl ⟨hp, e, rfl, rfl, ?_⟩
          simp only [sk, assigned, sortedBy] at hhq
          simp only [loadFields, hhp', hhq]
          rfl
      | ok hq =>
          refine .inr ?_
          have hhq' := hhq
          simp only [sk, assigned, sortedBy] at hhq'
          cases hx : xArg ipp me sk.n sk.g lam sk.nsquare with
          | error e =>
              refine .inl ⟨hp, hq, e, rfl, rfl, rfl, ?_⟩
              simp only [sk, lam, assigned, sortedBy] at hx
              simp only [loadFields, hhp', hhq', hx]
              rfl
          | ok lx =>
              refine .inr ⟨hp, hq, lx, rfl, rfl, rfl, ?_⟩
              simp only [sk, lam, assigned, sortedBy] at hx
              simp only [loadFields, hhp', hhq', hx]
              rfl

/-- A load that returns has run the body on two numbers it has read. -/
theorem loadFields_of_load {ar : Archive} {target sk : PrivateKey}
    (h : Load.exec (load ipp me) ar target = (.ok (), sk)) :
    ∃ p q ar' target' ar'', loadFields ipp me p q ar' target' = (.ok ((), ar''), sk) := by
  cases hread : loadPrimes ar target with
  | mk out mid =>
      cases out with
      | error e =>
          rw [Load.exec, load, Load.bind_error hread] at h
          cases h
      | ok read =>
          obtain ⟨⟨p, q⟩, ar'⟩ := read
          rw [Load.exec, load, Load.bind_ok hread] at h
          cases hrun : loadFields ipp me p q ar' mid with
          | mk out' mid' =>
              simp only [hrun] at h
              cases out' with
              | error e => cases h
              | ok done =>
                  obtain ⟨_, ar''⟩ := done
                  cases h
                  exact ⟨p, q, ar', mid, ar'', hrun⟩

/-- In a marked object the exponentiations of its own numbers come out. -/
theorem Made.derived {sk : PrivateKey} (hmade : Made ipp me sk)
    (hmark : sk.isInitialized = true) : Derived ipp me sk := by
  induction hmade with
  | unmarked hnot =>
      rw [hnot] at hmark
      cases hmark
  | publicKey hok =>
      obtain ⟨⟨hhp, hhq, hx⟩, -⟩ := ofPublicKey_ok hok
      exact ⟨hhp, hhq, hx⟩
  | modulus hok =>
      rw [ofModulus_eq_ofPublicKey] at hok
      obtain ⟨⟨hhp, hhq, hx⟩, -⟩ := ofPublicKey_ok hok
      exact ⟨hhp, hhq, hx⟩
  | enableCRT crt _ ih =>
      obtain ⟨hhp, hhq, hx⟩ := ih hmark
      exact ⟨hhp, hhq, hx⟩
  | loaded hok =>
      obtain ⟨p, q, ar', target', ar'', hrun⟩ := loadFields_of_load hok
      rcases loadFields_cases ipp me p q ar' target' with
        ⟨e, -, h⟩ | ⟨hp, e, -, -, h⟩ | ⟨hp, hq, e, -, -, -, h⟩ | ⟨hp, hq, lx, hhp, hhq, hlx, h⟩
      · rw [h] at hrun
        cases hrun
      · rw [h] at hrun
        cases hrun
      · rw [h] at hrun
        cases hrun
      · rw [h] at hrun
        cases hrun
        exact ⟨⟨hp, hhp⟩, ⟨hq, hhq⟩, ⟨lx, hlx⟩⟩

/-- A body that fails on such an object has changed it. -/
theorem changed_of_error {target sk : PrivateKey} (hd : Derived ipp me target) {p q : ℤ}
    {ar : Archive} {e : Error} (h : loadFields ipp me p q ar target = (.error e, sk)) :
    sk ≠ target := by
  obtain ⟨⟨hp', hhp'⟩, ⟨hq', hhq'⟩, ⟨lx', hlx'⟩⟩ := hd
  rintro rfl
  rcases loadFields_cases ipp me p q ar sk with
    ⟨e, herr, hrun⟩ | ⟨hp, e, -, herr, hrun⟩ | ⟨hp, hq, e, -, -, herr, hrun⟩ |
      ⟨hp, hq, lx, -, -, -, hrun⟩
  · obtain ⟨-, hsk⟩ := Prod.ext_iff.mp (hrun.symm.trans h)
    simp only at hsk
    rw [hsk, hhp'] at herr
    cases herr
  · obtain ⟨-, hsk⟩ := Prod.ext_iff.mp (hrun.symm.trans h)
    simp only at hsk
    rw [← hsk] at hhq'
    exact absurd (hhq'.symm.trans herr) (by simp)
  · obtain ⟨-, hsk⟩ := Prod.ext_iff.mp (hrun.symm.trans h)
    simp only at hsk
    rw [← hsk] at hlx'
    exact absurd (hlx'.symm.trans herr) (by simp)
  · rw [h] at hrun
    cases hrun

/-! ### Reading the archive -/

theorem one_le_tdiv {bits : ℤ} (hbits : 32 ≤ bits) : 1 ≤ bits.tdiv 32 := by
  rw [Int.tdiv_eq_ediv_of_nonneg (by omega)]
  omega

theorem int_content (bits : ℤ) (ep eq : List ℕ × Bool) (rest : Archive) (target : PrivateKey) :
    (Load.int : Load PrivateKey ℤ) (content bits ep eq rest) target
      = (.ok (bits, numberItems ep ++ (numberItems eq ++ rest)), target) := rfl

/-- From 32 bits on, with words in both numbers, the load is its body. -/
theorem load_content {bits : ℤ} (hbits : 32 ≤ bits) {ep eq : List ℕ × Bool} (hep : HasWords ep)
    (heq : HasWords eq) (rest : Archive) (target : PrivateKey) :
    Load.exec (load ipp me) (content bits ep eq rest) target
      = ((loadFields ipp me (numberRead ep) (numberRead eq) rest target).1.map fun _ => (),
          (loadFields ipp me (numberRead ep) (numberRead eq) rest target).2) := by
  have hread : loadPrimes (content bits ep eq rest) target
      = (.ok ((numberRead ep, numberRead eq), rest), target) := by
    rw [loadPrimes_of_words (one_le_tdiv hbits) (int_content ..),
      Load.bind_ok (load_numberItems hep _ _), Load.bind_ok (load_numberItems heq _ _)]
    rfl
  rw [Load.exec, load, Load.bind_ok hread]

/-- A size below -31 bits asks for a vector of a negative length. -/
theorem load_content_neg (ipp : Ipp) (me : ModExp) {bits : ℤ} (hbits : bits ≤ -32)
    (ep eq : List ℕ × Bool) (rest : Archive) (target : PrivateKey) :
    Throws (Load.exec (load ipp me) (content bits ep eq rest) target).1 ∧
      (Load.exec (load ipp me) (content bits ep eq rest) target).2 = target := by
  have hlen : bits.tdiv 32 < 0 := by
    obtain ⟨k, rfl⟩ : ∃ k, bits = -k := ⟨-bits, by omega⟩
    rw [Int.neg_tdiv, Int.tdiv_eq_ediv_of_nonneg (by omega)]
    omega
  have hzero : zeroWords (bits.tdiv 32)
      = .error (.runtime "cannot create std::vector larger than max_size()") := if_pos hlen
  have hread : loadPrimes (content bits ep eq rest) target
      = (.error (.runtime "cannot create std::vector larger than max_size()"), target) := by
    unfold loadPrimes
    rw [Load.bind_ok (int_content ..)]
    simp only [hzero, Load.ofResult_error_bind]
    rfl
  rw [Load.exec, load, Load.bind_error hread]
  exact ⟨⟨_, rfl⟩, rfl⟩

theorem tdiv_eq_zero_of_lt {bits : ℤ} (h1 : -32 < bits) (h2 : bits < 32) : bits.tdiv 32 = 0 := by
  rcases le_total 0 bits with h0 | h0
  · exact Int.tdiv_eq_zero_of_lt h0 h2
  · obtain ⟨k, rfl⟩ : ∃ k, bits = -k := ⟨-bits, by omega⟩
    rw [Int.neg_tdiv, Int.tdiv_eq_zero_of_lt (by omega) (by omega), neg_zero]

/-- Nothing well defined comes of a number of no words, be it a placeholder or one that is
read. -/
theorem load_content_no_words (ipp : Ipp) (me : ModExp) {bits : ℤ} (hbits : -32 < bits)
    {ep eq : List ℕ × Bool} (hwords : bits < 32 ∨ ¬ HasWords ep ∨ ¬ HasWords eq) (rest : Archive)
    (target : PrivateKey) :
    (Load.exec (load ipp me) (content bits ep eq rest) target).1
      = .error (.undefined "number of no words") := by
  have hread : loadPrimes (content bits ep eq rest) target
      = (.error (.undefined "number of no words"), target) := by
    by_cases hsmall : bits < 32
    · exact loadPrimes_of_no_words (tdiv_eq_zero_of_lt hbits hsmall) (int_content ..)
    · rw [loadPrimes_of_words (one_le_tdiv (not_lt.mp hsmall)) (int_content ..)]
      by_cases hep : HasWords ep
      · have heq := (hwords.resolve_left hsmall).resolve_left (not_not.mpr hep)
        rw [Load.bind_ok (load_numberItems hep _ _),
          Load.bind_error (load_numberItems_none heq _ _)]
      · rw [Load.bind_error (load_numberItems_none hep _ _)]
  rw [Load.exec, load, Load.bind_error hread]
  rfl

/-! ### When the derivation comes out -/

/-- Two positive odd numbers that are not both one. -/
def Usable (p q : ℤ) : Prop := 0 < p ∧ 0 < q ∧ Odd p ∧ Odd q ∧ p * q ≠ 1

/-- The negative of a number whose digits are all ones. -/
def AllOnes (x : ℤ) : Prop := ∃ k, 0 < k ∧ x = 1 - 2 ^ (64 * k)

section
variable (h : ipp.Lawful) (hme : me.OneExact) (href : me.Refuses)
include h hme href

/-- The exponentiation for one of the numbers comes out for an odd one whose predecessor is
not negative, and throws for any other. -/
theorem computeHfun_cases (g a : ℤ) :
    (Odd a ∧ 0 ≤ sub32 ipp a 1 ∧ ∃ v, computeHfun ipp me g a (mul ipp a a) = .ok v) ∨
      (¬ (Odd a ∧ 0 ≤ sub32 ipp a 1) ∧ Throws (computeHfun ipp me g a (mul ipp a a))) := by
  rw [mul_eq h]
  by_cases hodd : Odd a ∧ 0 ≤ sub32 ipp a 1
  · have hne : a ≠ 0 := by
      rintro rfl
      exact absurd hodd.1 (by decide)
    have hsq : 0 < a * a := mul_self_pos.mpr hne
    refine .inl ⟨hodd.1, hodd.2, ?_⟩
    rw [computeHfun, hfunArg, mod_eq h _ hsq,
      hme.one_exact _ _ _ (Admissible.of_emod hsq (hodd.1.mul hodd.1) hodd.2 g)]
    exact ⟨_, rfl⟩
  · refine .inr ⟨hodd, ?_⟩
    have hadm : ¬ Admissible (mod ipp g (a * a)) (sub32 ipp a 1) (a * a) := by
      intro hadm
      exact hodd ⟨(Int.odd_mul.mp hadm.odd).1, hadm.exp_nonneg⟩
    exact ((href _ _ _ (mul_self_nonneg a) hadm).bind _).bind _

/-- The exponentiation for `x` comes out for an odd product above one and an exponent that is
not negative, and throws otherwise. -/
theorem xArg_cases (n lam : ℤ) :
    (Admissible (n + 1) lam (n * n) ∧
        ∃ v, xArg ipp me n (add32 ipp n 1) lam (mul ipp n n) = .ok v) ∨
      (¬ Admissible (n + 1) lam (n * n) ∧
        Throws (xArg ipp me n (add32 ipp n 1) lam (mul ipp n n))) := by
  have hg : add32 ipp n 1 = n + 1 := add32_eq h n 1
  rw [mul_eq h, hg]
  by_cases hadm : Admissible (n + 1) lam (n * n)
  · refine .inl ⟨hadm, ?_⟩
    rw [xArg, hme.one_exact _ _ _ hadm]
    exact ⟨_, rfl⟩
  · exact .inr ⟨hadm, (href _ _ _ (mul_self_nonneg n) hadm).bind _⟩

omit hme href

theorem sub_eq_of_not_opposite {a b : ℤ} (hno : ¬ Opposite a b) : sub ipp a b = a - b := by
  refine h.sub_exact _ a b ?_
  exact (fits_sub_iff (natAbs_lt_two_pow_bitLen a) (natAbs_lt_two_pow_bitLen b)).mpr
    fun hopp => absurd hopp hno

/-- Numbers of one sign are put in order. -/
theorem sortedBy_eq {p q : ℤ} (hno : ¬ Opposite q p) : sortedBy ipp p q = (min p q, max p q) := by
  have hlt := lt_of_compare (compare_of_sub (sub_eq_of_not_opposite h hno))
  simp only [sortedBy, hlt, decide_eq_true_eq]
  rw [Prod.mk.injEq]
  constructor <;> split_ifs <;> omega

omit h in
theorem sortedBy_cases (ipp : Ipp) (p q : ℤ) :
    sortedBy ipp p q = (p, q) ∨ sortedBy ipp p q = (q, p) := by
  unfold sortedBy
  cases lt ipp q p with
  | true => exact .inr rfl
  | false => exact .inl rfl

/-- A number whose predecessor is stored as not negative is positive, or its digits are all
ones. -/
theorem pos_or_allOnes {x : ℤ} (hx : x ≠ 0) (hsub : 0 ≤ sub32 ipp x 1) : 0 < x ∨ AllOnes x := by
  by_cases hpos : 0 < x
  · exact .inl hpos
  refine .inr ?_
  have hone : (((1 : UInt32).toNat : ℕ) : ℤ).natAbs < 2 ^ 32 := by decide
  have hfits := fits_sub_iff (natAbs_lt_two_pow_bitLen x) hone
  have hopp : Opposite x ((1 : UInt32).toNat : ℤ) := .inl ⟨by omega, by decide⟩
  have hnot : ¬ Fits (roomOf (bitsizeWord (max (bitLen x) 32))) (x - ((1 : UInt32).toNat : ℤ)) := by
    intro hfit
    have hexact := h.sub_exact _ _ _ hfit
    have hval : sub32 ipp x 1 = x - 1 := hexact
    omega
  have hsum : ¬ x.natAbs + 1 < 2 ^ digitBits (bitLen x) 32 := fun hc =>
    hnot (hfits.mpr fun _ => hc)
  have hlt : x.natAbs < 2 ^ digitBits (bitLen x) 32 := by
    refine (natAbs_lt_two_pow_bitLen x).trans_le (Nat.pow_le_pow_right Nat.two_pos ?_)
    exact (le_max_left _ _).trans (le_roomOf_bitsizeWord _)
  refine ⟨roomOf (bitsizeWord (max (bitLen x) 32)), ?_, ?_⟩
  · have := bitLen_pos x
    unfold roomOf bitsizeWord
    omega
  · have habs : ((x.natAbs + 1 : ℕ) : ℤ) = 2 ^ digitBits (bitLen x) 32 := by
      rw [show x.natAbs + 1 = 2 ^ digitBits (bitLen x) 32 by omega]
      push_cast
      rfl
    show x = 1 - 2 ^ digitBits (bitLen x) 32
    omega

omit h in
theorem AllOnes.lt_neg {x : ℤ} (hx : AllOnes x) : x < -1 := by
  obtain ⟨k, hk, rfl⟩ := hx
  have hpow : (2 : ℤ) ^ 2 ≤ 2 ^ (64 * k) := pow_le_pow_right₀ (by decide) (by omega)
  omega

/-- What the three exponentiations accept. -/
theorem usable_of_accepted {p q lam : ℤ} (hp : Odd p ∧ 0 ≤ sub32 ipp p 1)
    (hq : Odd q ∧ 0 ≤ sub32 ipp q 1) (hx : Admissible (p * q + 1) lam (p * q * (p * q))) :
    Usable p q ∨ AllOnes p ∧ AllOnes q := by
  have hp0 : p ≠ 0 := by
    rintro rfl
    exact absurd hp.1 (by decide)
  have hq0 : q ≠ 0 := by
    rintro rfl
    exact absurd hq.1 (by decide)
  have hbase := hx.base_nonneg
  rcases pos_or_allOnes h hp0 hp.2 with hpp | hpp
  · rcases pos_or_allOnes h hq0 hq.2 with hqq | hqq
    · refine .inl ⟨hpp, hqq, hp.1, hq.1, fun hone => ?_⟩
      have hlt := hx.base_lt
      rw [hone] at hlt
      omega
    · have := hqq.lt_neg
      nlinarith
  · rcases pos_or_allOnes h hq0 hq.2 with hqq | hqq
    · have := hpp.lt_neg
      nlinarith
    · exact .inr ⟨hpp, hqq⟩

/-- The least common multiple of the predecessors is not negative. -/
theorem lcm_nonneg (hzero : PublicKey.GcdZero ipp) {a b : ℤ} (ha : 0 ≤ a) (hb : 0 < b) :
    0 ≤ lcm ipp a b := by
  rw [lcm, mul_eq h]
  rcases ha.eq_or_lt with rfl | hpos
  · rw [hzero b hb, zero_mul, div_eq h _ hb.ne', Int.zero_tdiv]
  · have hne : ((Int.gcd a b : ℕ) : ℤ) ≠ 0 := by
      exact_mod_cast (Int.gcd_pos_of_ne_zero_left b hpos.ne').ne'
    rw [gcd_eq h hpos hb, div_eq h _ hne]
    exact Int.tdiv_nonneg (mul_pos hpos hb).le (Int.natCast_nonneg _)

/-- They accept usable numbers. -/
theorem accepted_of_usable (hzero : PublicKey.GcdZero ipp) {p q : ℤ} (hu : Usable p q) :
    let s := sortedBy ipp p q
    (Odd s.1 ∧ 0 ≤ sub32 ipp s.1 1) ∧ (Odd s.2 ∧ 0 ≤ sub32 ipp s.2 1) ∧
      Admissible (p * q + 1) (lcm ipp (sub32 ipp s.1 1) (sub32 ipp s.2 1)) (p * q * (p * q)) := by
  obtain ⟨hp, hq, hop, hoq, hne⟩ := hu
  have hno : ¬ Opposite q p := by
    unfold BigNumber.Opposite
    omega
  rw [sortedBy_eq h hno]
  have hn : 1 < p * q := by
    have := mul_pos hp hq
    omega
  have hmin : 0 < min p q := lt_min hp hq
  have hmax : 1 < max p q := by
    by_contra hle
    rw [not_lt, max_le_iff] at hle
    exact hne (by nlinarith)
  have hodd := hop.mul hoq
  have hcases : Odd (min p q) ∧ Odd (max p q) := by
    rcases le_total p q with hle | hle
    · rw [min_eq_left hle, max_eq_right hle]
      exact ⟨hop, hoq⟩
    · rw [min_eq_right hle, max_eq_left hle]
      exact ⟨hoq, hop⟩
  simp only [sub32_one h hmin.le, sub32_one h (hmin.le.trans min_le_max)]
  refine ⟨⟨hcases.1, by omega⟩, ⟨hcases.2, by omega⟩, hodd.mul hodd, by omega, by nlinarith, ?_⟩
  exact lcm_nonneg h hzero (by omega) (by omega)

include hme href

/-- The body returns a marked key of the two numbers that are accepted, or it throws and the
mark stays as it was. -/
theorem loadFields_outcome (hzero : PublicKey.GcdZero ipp) (p q : ℤ) (ar : Archive)
    (target : PrivateKey) :
    (∃ sk, loadFields ipp me p q ar target = (.ok ((), ar), sk) ∧ sk.n = p * q ∧
        (sk.p, sk.q) = sortedBy ipp p q ∧ sk.isInitialized = true ∧
        (Usable p q ∨ AllOnes p ∧ AllOnes q)) ∨
      (∃ msg sk, loadFields ipp me p q ar target = (.error (.runtime msg), sk) ∧
        sk.isInitialized = target.isInitialized ∧ ¬ Usable p q) := by
  have hn := mul_eq h p q
  have hcases := loadFields_cases ipp me p q ar target
  simp only [assigned, hn] at hcases
  have hfst := computeHfun_cases h hme href (add32 ipp (p * q) 1) (sortedBy ipp p q).1
  have hsnd := computeHfun_cases h hme href (add32 ipp (p * q) 1) (sortedBy ipp p q).2
  have hx := xArg_cases h hme href (p * q)
    (lcm ipp (sub32 ipp (sortedBy ipp p q).1 1) (sub32 ipp (sortedBy ipp p q).2 1))
  have hacc := fun hu => accepted_of_usable h hzero (p := p) (q := q) hu
  rcases hcases with ⟨e, herr, hrun⟩ | ⟨hp, e, -, herr, hrun⟩ | ⟨hp, hq, e, -, -, herr, hrun⟩ |
    ⟨hp, hq, lx, hhp, hhq, hlx, hrun⟩
  · rcases hfst with ⟨-, -, v, hv⟩ | ⟨hnot, msg, hmsg⟩
    · rw [herr] at hv
      cases hv
    · rw [herr] at hmsg
      cases hmsg
      exact .inr ⟨msg, _, hrun, rfl, fun hu => hnot (hacc hu).1⟩
  · rcases hsnd with ⟨-, -, v, hv⟩ | ⟨hnot, msg, hmsg⟩
    · rw [herr] at hv
      cases hv
    · rw [herr] at hmsg
      cases hmsg
      exact .inr ⟨msg, _, hrun, rfl, fun hu => hnot (hacc hu).2.1⟩
  · rcases hx with ⟨-, v, hv⟩ | ⟨hnot, msg, hmsg⟩
    · rw [herr] at hv
      cases hv
    · rw [herr] at hmsg
      cases hmsg
      exact .inr ⟨msg, _, hrun, rfl, fun hu => hnot (hacc hu).2.2⟩
  · refine .inl ⟨_, hrun, rfl, rfl, rfl, ?_⟩
    rcases hfst with ⟨hodd1, hsub1, -⟩ | ⟨-, msg, hmsg⟩
    · rcases hsnd with ⟨hodd2, hsub2, -⟩ | ⟨-, msg, hmsg⟩
      · rcases hx with ⟨hadm, -⟩ | ⟨-, msg, hmsg⟩
        · rcases sortedBy_cases ipp p q with hs | hs
          · rw [hs] at hodd1 hsub1 hodd2 hsub2
            exact usable_of_accepted h ⟨hodd1, hsub1⟩ ⟨hodd2, hsub2⟩ hadm
          · rw [hs] at hodd1 hsub1 hodd2 hsub2
            exact usable_of_accepted h ⟨hodd2, hsub2⟩ ⟨hodd1, hsub1⟩ hadm
        · rw [hlx] at hmsg
          cases hmsg
      · rw [hhq] at hmsg
        cases hmsg
    · rw [hhp] at hmsg
      cases hmsg

omit hme href

/-- A key of two numbers of one sign is as the constructors make it if they are different. -/
theorem enforced_iff {p q : ℤ} {sk : PrivateKey} (hn : sk.n = p * q)
    (hs : (sk.p, sk.q) = sortedBy ipp p q) (hmark : sk.isInitialized = true)
    (hsign : Usable p q ∨ AllOnes p ∧ AllOnes q) : Enforced p q sk ↔ p ≠ q := by
  have hno : ¬ BigNumber.Opposite q p := by
    unfold BigNumber.Opposite
    rcases hsign with hu | ⟨hp, hq⟩
    · have := hu.1
      have := hu.2.1
      omega
    · have := hp.lt_neg
      have := hq.lt_neg
      omega
  rw [sortedBy_eq h hno, Prod.mk.injEq] at hs
  constructor
  · intro henf
    have hlt := henf.lt
    rw [hs.1, hs.2] at hlt
    omega
  · intro hne
    refine ⟨hn, hs.1, hs.2, ?_, hmark⟩
    rw [hs.1, hs.2]
    omega

include hme href

/-- Contents that are stopped are stopped well in an object that is not marked. -/
theorem loadChecked_stopped (hzero : PublicKey.GcdZero ipp) {target : PrivateKey}
    (hmade : Made ipp me target) {bits : ℤ} (hbits : 32 ≤ bits) {ep eq : List ℕ × Bool}
    (hep : HasWords ep) (heq : HasWords eq) (rest : Archive)
    (hstop : ¬ Usable (numberRead ep) (numberRead eq))
    (hsign : ¬ (AllOnes (numberRead ep) ∧ AllOnes (numberRead eq))) :
    LoadChecked ipp me target bits ep eq rest ↔ target.isInitialized = false := by
  unfold LoadChecked
  simp only [load_content hbits hep heq]
  rcases loadFields_outcome h hme href hzero (numberRead ep) (numberRead eq) rest target with
    ⟨sk, -, -, -, -, hu⟩ | ⟨msg, sk, hrun, hmark, -⟩
  · exact absurd hu (by tauto)
  · simp only [hrun]
    constructor
    · rintro (⟨-, hsame⟩ | ⟨hok, -⟩)
      · by_contra hinit
        rw [Bool.not_eq_false] at hinit
        exact changed_of_error (hmade.derived hinit) hrun (hsame (hmark.trans hinit))
      · cases hok
    · intro hnot
      refine .inl ⟨⟨msg, rfl⟩, fun hinit => ?_⟩
      rw [hmark, hnot] at hinit
      cases hinit

/-- Contents that are not stopped make a key of different numbers. -/
theorem loadChecked_usable (hzero : PublicKey.GcdZero ipp) (target : PrivateKey)
    {bits : ℤ} (hbits : 32 ≤ bits) {ep eq : List ℕ × Bool}
    (hep : HasWords ep) (heq : HasWords eq) (rest : Archive)
    (hu : Usable (numberRead ep) (numberRead eq)) :
    LoadChecked ipp me target bits ep eq rest ↔ numberRead ep ≠ numberRead eq := by
  unfold LoadChecked
  simp only [load_content hbits hep heq]
  rcases loadFields_outcome h hme href hzero (numberRead ep) (numberRead eq) rest target with
    ⟨sk, hrun, hn, hs, hmark, hsign⟩ | ⟨msg, sk, -, -, hnot⟩
  · simp only [hrun]
    rw [← enforced_iff h hn hs hmark hsign]
    constructor
    · rintro (⟨hthrows, -⟩ | ⟨-, henf⟩)
      · exact absurd hthrows not_throws_ok
      · exact henf
    · intro henf
      exact .inr ⟨rfl, henf⟩
  · exact absurd hu hnot

/-- Numbers whose predecessors are not determined: whatever happens, different ones do no harm
to an object that is not marked. -/
theorem loadChecked_allOnes (hzero : PublicKey.GcdZero ipp) {target : PrivateKey}
    (hunmarked : target.isInitialized = false) {bits : ℤ} (hbits : 32 ≤ bits)
    {ep eq : List ℕ × Bool} (hep : HasWords ep) (heq : HasWords eq) (rest : Archive)
    (hne : numberRead ep ≠ numberRead eq) : LoadChecked ipp me target bits ep eq rest := by
  unfold LoadChecked
  simp only [load_content hbits hep heq]
  rcases loadFields_outcome h hme href hzero (numberRead ep) (numberRead eq) rest target with
    ⟨sk, hrun, hn, hs, hmark, hsign⟩ | ⟨msg, sk, hrun, hmark, -⟩
  · simp only [hrun]
    exact .inr ⟨rfl, (enforced_iff h hn hs hmark hsign).mpr hne⟩
  · simp only [hrun]
    refine .inl ⟨⟨msg, rfl⟩, fun hinit => ?_⟩
    rw [hmark, hunmarked] at hinit
    cases hinit

omit h hme href

/-- The contents an object is safe from.  A negative size is refused before anything is
assigned.  Otherwise there are words for the placeholders and in both numbers, and the
numbers are different where they are usable; where they are not, the object is not marked. -/
def Safe (target : PrivateKey) (bits : ℤ) (ep eq : List ℕ × Bool) : Prop :=
  bits ≤ -32 ∨ 32 ≤ bits ∧ HasWords ep ∧ HasWords eq ∧
    (Usable (numberRead ep) (numberRead eq) ∧ numberRead ep ≠ numberRead eq ∨
      ¬ Usable (numberRead ep) (numberRead eq) ∧ target.isInitialized = false ∧
        ¬ (AllOnes (numberRead ep) ∧ numberRead ep = numberRead eq))

/-- What a load makes of a number of no words is not defined, so it is no safe outcome. -/
theorem not_loadChecked_no_words {target : PrivateKey} {bits : ℤ} (hbits : -32 < bits)
    {ep eq : List ℕ × Bool} (hwords : bits < 32 ∨ ¬ HasWords ep ∨ ¬ HasWords eq) (rest : Archive) :
    ¬ LoadChecked ipp me target bits ep eq rest := by
  have hrun := load_content_no_words ipp me hbits hwords rest target
  rintro (⟨hthrows, -⟩ | ⟨hok, -⟩)
  · rw [hrun] at hthrows
    exact not_throws_undefined hthrows
  · rw [hrun] at hok
    cases hok

include h hme href

/-- **Loading is checked like constructing exactly for the contents an object is safe from**,
and for these also where both numbers are negative with all their digits ones, of which the
other direction is not determined. -/
theorem load_checked (hzero : PublicKey.GcdZero ipp) {target : PrivateKey}
    (hmade : Made ipp me target) (bits : ℤ) (ep eq : List ℕ × Bool) (rest : Archive) :
    (Safe target bits ep eq → LoadChecked ipp me target bits ep eq rest) ∧
      (¬ (AllOnes (numberRead ep) ∧ AllOnes (numberRead eq)) →
        LoadChecked ipp me target bits ep eq rest → Safe target bits ep eq) := by
  constructor
  · rintro (hneg | ⟨hbits, hep, heq, ⟨hu, hne⟩ | ⟨hstop, hunmarked, hones⟩⟩)
    · obtain ⟨hthrows, hsame⟩ := load_content_neg ipp me hneg ep eq rest target
      exact .inl ⟨hthrows, fun _ => hsame⟩
    · exact (loadChecked_usable h hme href hzero target hbits hep heq rest hu).mpr hne
    · by_cases hboth : AllOnes (numberRead ep) ∧ AllOnes (numberRead eq)
      · exact loadChecked_allOnes h hme href hzero hunmarked hbits hep heq rest
          fun hsame => hones ⟨hboth.1, hsame⟩
      · exact (loadChecked_stopped h hme href hzero hmade hbits hep heq rest hstop hboth).mpr
          hunmarked
  · intro hboth hchecked
    by_cases hneg : bits ≤ -32
    · exact .inl hneg
    have hwords : ¬ (bits < 32 ∨ ¬ HasWords ep ∨ ¬ HasWords eq) := fun hwords =>
      not_loadChecked_no_words (by omega) hwords rest hchecked
    push Not at hwords
    obtain ⟨hbits, hep, heq⟩ := hwords
    refine .inr ⟨hbits, hep, heq, ?_⟩
    by_cases hu : Usable (numberRead ep) (numberRead eq)
    · exact .inl ⟨hu,
        (loadChecked_usable h hme href hzero target hbits hep heq rest hu).mp hchecked⟩
    · refine .inr ⟨hu, (loadChecked_stopped h hme href hzero hmade hbits hep heq rest hu
        hboth).mp hchecked, ?_⟩
      rintro ⟨hones, hsame⟩
      exact hboth ⟨hones, hsame ▸ hones⟩

end

/-- A default-constructed key. -/
def unset : PrivateKey :=
  { isInitialized := false, enableCrt := false, n := 0, nsquare := 0, g := 0, p := 0, q := 0,
    pminusone := 0, qminusone := 0, psquare := 0, qsquare := 0, pinverse := 0, hp := 0, hq := 0,
    lambda := 0, x := 0 }

theorem hasWords_one (w : ℕ) : HasWords ([w], false) :=
  hasWords_of_lt (by simp) (by simp)

theorem numberRead_one (w : ℕ) : numberRead ([w], false) = denoted ([w], false) :=
  numberRead_of_lt (by simp)

/-- The primes 5 and 3 are put in order, and the number 6 is refused. -/
theorem load_checked_five_three :
    LoadChecked Ipp.reference ModExp.reference unset 64 ([5], false) ([3], false) [] ∧
      LoadChecked Ipp.reference ModExp.reference unset 64 ([6], false) ([5], false) [] :=
  ⟨(load_checked Ipp.reference_lawful ModExp.reference_exact ModExp.reference_refuses
      PublicKey.gcdZero_reference (.unmarked rfl) _ _ _ _).1
      (.inr ⟨by decide, hasWords_one 5, hasWords_one 3,
        by rw [numberRead_one, numberRead_one]; exact .inl ⟨by unfold Usable; decide, by decide⟩⟩),
    (load_checked Ipp.reference_lawful ModExp.reference_exact ModExp.reference_refuses
      PublicKey.gcdZero_reference (.unmarked rfl) _ _ _ _).1
      (.inr ⟨by decide, hasWords_one 6, hasWords_one 5, by
        rw [numberRead_one, numberRead_one]
        exact .inr ⟨by unfold Usable; decide, rfl, fun hc => absurd hc.2 (by decide)⟩⟩)⟩

/-- Equal primes are let through, and the number 6 is refused half way into a marked key. -/
theorem not_load_checked_five_five :
    ¬ LoadChecked Ipp.reference ModExp.reference unset 64 ([5], false) ([5], false) [] ∧
      ∃ sk, ofModulus Ipp.reference ModExp.reference 15 3 5 = .ok sk ∧
        ¬ LoadChecked Ipp.reference ModExp.reference sk 64 ([6], false) ([5], false) [] := by
  refine ⟨fun hchecked => ?_, ?_⟩
  · have hu : Usable (numberRead ([5], false)) (numberRead ([5], false)) := by
      rw [numberRead_one, Usable]
      decide
    exact (loadChecked_usable Ipp.reference_lawful ModExp.reference_exact
      ModExp.reference_refuses PublicKey.gcdZero_reference unset (by decide) (hasWords_one 5)
      (hasWords_one 5) [] hu).mp hchecked rfl
  · have hok := ofModulus_eq Ipp.reference_lawful ModExp.reference_exact Nat.prime_three
      Nat.prime_five (by decide) (by decide)
    refine ⟨_, hok, fun hchecked => ?_⟩
    have hstop : ¬ Usable (numberRead ([6], false)) (numberRead ([5], false)) := by
      rw [numberRead_one, numberRead_one, Usable]
      decide
    have hsign : ¬ (AllOnes (numberRead ([6], false)) ∧ AllOnes (numberRead ([5], false))) := by
      rw [numberRead_one]
      exact fun hc => absurd hc.1.lt_neg (by decide)
    have hmark := (loadChecked_stopped Ipp.reference_lawful ModExp.reference_exact
      ModExp.reference_refuses PublicKey.gcdZero_reference (.modulus hok) (by decide)
      (hasWords_one 6) (hasWords_one 5) [] hstop hsign).mp hchecked
    cases hmark

end PrivateKey

end Ipcl
