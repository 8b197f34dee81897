/-
When an obfuscator is a unit.

Multiplying by an obfuscator changes no plaintext as long as the obfuscator is the `n`-th
power of a unit.  In normal mode its base is a random number below the modulus, and nothing
looks whether it is prime to it.  In DJN mode the base is made once, from a random number
that is looked at; but what is made of it is a square times `2 ^ 32 - 1`, and the modulus
may have a factor in common with that.

An obfuscator that is no unit takes the ciphertext out of the units with it, so these are
the draws, and the moduli, for which obfuscation is wrong.  Besides, what is raised has to
reach the engines: in DJN mode an exponent has half the bits the key was made with, and
that number is not compared with the length of the modulus.
-/
import Ipcl.Proofs.Create
import Ipcl.Proofs.Djn
import Ipcl.Proofs.Homomorphic
import Ipcl.Proofs.Serves

namespace Ipcl

open BigNumber Paillier

namespace PublicKey

variable {ipp : Ipp} {me : ModExp}

/-! ### Obfuscators that are units -/

/-- The draw makes a unit. -/
def MakesUnit (n : ℕ) (bits : ℤ) (djn : Bool) (v : ℕ) : Prop :=
  if djn then (2 ^ 32 - 1).Coprime n ∨ v % 2 ^ (bits >>> (1 : ℕ)).toNat = 0
  else (v % 2 ^ bits.toNat % (n - 1) + 1).Coprime n

instance (n : ℕ) (bits : ℤ) (djn : Bool) (v : ℕ) : Decidable (MakesUnit n bits djn v) := by
  unfold MakesUnit
  infer_instance

theorem isCoprime_emod_iff {a n : ℤ} : IsCoprime (a % n) n ↔ IsCoprime a n := by
  rw [Int.isCoprime_iff_gcd_eq_one, Int.isCoprime_iff_gcd_eq_one, Int.gcd_emod]

theorem isCoprime_emod_sq_iff {n : ℕ} {a : ℤ} :
    IsCoprime (a % ((n : ℤ) * n)) (n : ℤ) ↔ IsCoprime a (n : ℤ) := by
  have hmod : a % ((n : ℤ) * n) ≡ a [ZMOD (n : ℤ) ^ 2] := by
    rw [sq]
    exact Int.mod_modEq _ _
  exact ⟨fun hc => isCoprime_of_modEq_sq hc hmod.symm, fun hc => isCoprime_of_modEq_sq hc hmod⟩

theorem isCoprime_powMod_iff {n : ℕ} {b : ℤ} {e : ℕ} :
    IsCoprime (powMod b e (n * n)) (n : ℤ) ↔ e = 0 ∨ IsCoprime b (n : ℤ) := by
  rw [powMod, isCoprime_emod_sq_iff, Int.toNat_natCast]
  rcases Nat.eq_zero_or_pos e with rfl | hpos
  · simp [isCoprime_one_left]
  · rw [IsCoprime.pow_left_iff hpos]
    constructor
    · exact .inr
    · intro hc
      exact hc.resolve_left hpos.ne'

/-- The generator made of a unit is one when the modulus is prime to `2 ^ 32 - 1`. -/
theorem isCoprime_djnGenerator_iff (h : ipp.Lawful) {n : ℕ} (hn : 0 < n) {x : ℤ}
    (hx : IsCoprime x (n : ℤ)) :
    IsCoprime (djnGenerator ipp n x) (n : ℤ) ↔ (2 ^ 32 - 1).Coprime n := by
  have hlit : ((2 : ℤ) ^ 32 - 1) = ((2 ^ 32 - 1 : ℕ) : ℤ) := by norm_num
  rw [djnGenerator_eq h hn, isCoprime_emod_iff, IsCoprime.mul_left_iff, hlit,
    Nat.isCoprime_iff_coprime]
  exact and_iff_left hx.pow_left

/-- A key that the constructor has made of a unit. -/
structure Generated (ipp : Ipp) (n : ℕ) (bits : ℤ) (djn : Bool) (pk : PublicKey) : Prop
    extends Fresh n bits djn pk where
  accepted : djn = true → ∃ x : ℤ, IsCoprime x (n : ℤ) ∧
    pk.hs = powMod (djnGenerator ipp n x) n (n * n)

theorem Fresh.shaped {n : ℕ} {bits : ℤ} {djn : Bool} {pk : PublicKey} (hpk : Fresh n bits djn pk)
    (hbits : 2 ≤ bits) : Shaped n pk where
  for_n := hpk.for_n
  testv := hpk.testv
  normal _ := by
    rw [hpk.bits_eq]
    omega
  djn hdjn := by
    rw [(hpk.generator (hpk.djn_eq ▸ hdjn)).1, Int.shiftRight_eq_div_pow]
    omega
  generator hdjn := (hpk.generator (hpk.djn_eq ▸ hdjn)).2

theorem isCoprime_obfuscatorOf_iff (h : ipp.Lawful) {n : ℕ} (hn : 1 < n) {bits : ℤ} {djn : Bool}
    {pk : PublicKey} (hpk : Generated ipp n bits djn pk) (v : ℕ) :
    IsCoprime (obfuscatorOf ipp pk v) (n : ℤ) ↔ MakesUnit n bits djn v := by
  have hn0 : n ≠ 0 := by omega
  unfold obfuscatorOf MakesUnit
  rw [hpk.djn_eq, hpk.bits_eq, hpk.for_n.nsquare_eq, hpk.for_n.n_eq]
  cases djn with
  | true =>
      obtain ⟨x, hx, hhs⟩ := hpk.accepted rfl
      rw [if_pos rfl, if_pos rfl, isCoprime_powMod_iff, (hpk.generator rfl).1, hhs,
        isCoprime_powMod_iff, isCoprime_djnGenerator_iff h (by omega) hx, or_comm]
      simp only [hn0, false_or]
  | false =>
      rw [if_neg (by decide), if_neg (by decide), isCoprime_powMod_iff, normalBase_eq h hn,
        Nat.isCoprime_iff_coprime]
      simp only [hn0, false_or]

/-- A unit among the obfuscators is the power of a unit. -/
theorem obfuscates_of_isCoprime {n : ℕ} (hn : 0 < n) {pk : PublicKey} (hpk : Shaped n pk) {v : ℕ}
    (hv : IsCoprime (obfuscatorOf ipp pk v) (n : ℤ)) : Obfuscates n (obfuscatorOf ipp pk v) := by
  unfold obfuscatorOf at hv ⊢
  rw [hpk.for_n.nsquare_eq, hpk.for_n.n_eq] at hv ⊢
  by_cases hdjn : pk.djnEnabled = true
  · obtain ⟨g, hg⟩ := hpk.generator hdjn
    rw [if_pos hdjn, hg] at hv ⊢
    refine obfuscates_powMod ?_
    rw [isCoprime_powMod_iff] at hv
    rcases hv with hzero | hunit
    · rw [hzero, pow_zero]
      exact isCoprime_one_left
    · exact (isCoprime_of_powMod hn hunit).pow_left
  · rw [if_neg hdjn] at hv ⊢
    rw [isCoprime_powMod_iff] at hv
    rw [← sq]
    exact ⟨_, hv.resolve_left hn.ne', powMod_modEq _ n _⟩

/-! ### Keys from the constructor -/

/-- What the documentation of the greatest common divisor says of zero. -/
def GcdZero (ipp : Ipp) : Prop := ∀ b : ℤ, 0 < b → BigNumber.gcd ipp 0 b = b

/-- The value the loop ends with is prime to the modulus. -/
theorem isCoprime_of_settled (h : ipp.Lawful) (hzero : GcdZero ipp) {n : ℤ} (hn : 1 < n)
    {draws rest : Draws} {x : ℤ}
    (hx : settled ipp n (draws.dropWhile fun d => rejected ipp n d) = .ok (x, rest)) :
    IsCoprime x n := by
  have hhead := List.head?_dropWhile_not (fun d => rejected ipp n d) draws
  cases hdrop : draws.dropWhile fun d => rejected ipp n d with
  | nil =>
      rw [hdrop] at hx
      cases hx
  | cons d left =>
      rw [hdrop] at hx hhead
      cases d with
      | error e => cases hx
      | ok v =>
          cases hx
          have hrand : 0 ≤ randOf ipp n v := Int.natCast_nonneg _
          have haccept : BigNumber.compare ipp (BigNumber.gcd ipp (randOf ipp n v) n) 1 = 0 := by
            simpa [rejected] using hhead
          rw [mod_eq h _ (by omega), isCoprime_emod_iff, Int.isCoprime_iff_gcd_eq_one]
          rcases hrand.eq_or_lt with hz | hpos
          · rw [← hz, hzero n (by omega), compare_of_nonneg h (by omega) (by omega)] at haccept
            split_ifs at haccept <;> omega
          · rw [gcd_eq h hpos (by omega), compare_of_nonneg h (by omega) (by omega)] at haccept
            split_ifs at haccept <;> omega

theorem generated_of_new (h : ipp.Lawful) (hme : me.OneExact) (hzero : GcdZero ipp) {n : ℕ}
    (hn : 1 < n) (hodd : Odd n) {bits : ℤ} {djn : Bool} {pk : PublicKey} {draws rest : Draws}
    (hpk : new ipp me n bits djn draws = .ok (pk, rest)) : Generated ipp n bits djn pk := by
  have hfresh := (new_returns h hme hn hodd bits djn draws pk rest (by simp) hpk).1
  refine ⟨hfresh, fun hdjn => ?_⟩
  subst hdjn
  obtain ⟨r, henable, hpk⟩ := Result.of_bind_ok
    (show (enableDJN ipp me _ draws >>= fun r => _) = _ from hpk)
  rw [enableDJN_eq h] at henable
  obtain ⟨r', hsettled, henable⟩ := Result.of_bind_ok henable
  have hn1 : (1 : ℤ) < n := by exact_mod_cast hn
  have hcop := isCoprime_of_settled h hzero hn1 hsettled
  have hadm := djnGenerator_admissible h hn1 (by exact_mod_cast hodd) r'.1
  have hone := hme.one_exact _ _ _ hadm
  rw [show mul ipp (n : ℤ) n = n * n from mul_eq h _ _, hone] at henable
  refine ⟨r'.1, hcop, ?_⟩
  cases henable
  cases hpk
  rfl

/-! ### What becomes of a vector -/

/-- The vector is obfuscated to one of units with the same plaintexts, by whatever raises what
decryption asks for. -/
structure ObfuscatedTo (ipp : Ipp) (n : ℕ) (sk : PrivateKey) (pk : PublicKey)
    (cs cs' : List ℤ) : Prop where
  units : ∀ c ∈ cs', UnitResidue n c
  powers : List.Forall₂ (fun c c' => ∃ o, Obfuscates n o ∧ c' = c * o % ((n : ℤ) * n)) cs cs'
  decrypts : ∀ me : ModExp, me.Lawful Short → ∀ crt, ∃ pt,
    PrivateKey.decrypt ipp me (sk.enableCRT crt) (CipherText.ofVec pk cs') = .ok pt ∧
      PrivateKey.decrypt ipp me (sk.enableCRT crt) (CipherText.ofVec pk cs) = .ok pt

/-- Obfuscating the vector with the draws changes no plaintext, whatever engines conform to their
documentation. -/
def KeepsPlaintexts (ipp : Ipp) (mb : Bool) (share : ℕ → ℕ) (n : ℕ) (sk : PrivateKey)
    (pk : PublicKey) (cs : List ℤ) (vs : List ℕ) : Prop :=
  ∀ en : Engines, en.Lawful → en.ipp = ipp →
    ∃ cs', applyObfuscator ipp (en.toModExp mb share) pk cs (vs.map .ok) = .ok (cs', []) ∧
      ObfuscatedTo ipp n sk pk cs cs'

/-- Decrypting does not see the power of a unit. -/
theorem rawPlain_obfuscate (P : PrimePair) {c o : ℤ} (ho : Obfuscates P.n o) :
    PrivateKey.rawPlain ipp P (c * o % ((P.n : ℤ) * P.n)) = PrivateKey.rawPlain ipp P c := by
  obtain ⟨u, hu, hou⟩ := ho
  have hone : o ^ P.lam ≡ 1 [ZMOD (P.n : ℤ) ^ 2] := calc
    o ^ P.lam ≡ (u ^ P.n) ^ P.lam [ZMOD (P.n : ℤ) ^ 2] := hou.pow _
    _ = (u ^ P.lam) ^ P.n := by rw [← pow_mul, ← pow_mul, mul_comm]
    _ ≡ 1 [ZMOD (P.n : ℤ) ^ 2] := Residue.pow_self_modEq_one (P.pow_lam hu)
  have hpow : (c * o % ((P.n : ℤ) * P.n)) ^ P.lam ≡ c ^ P.lam [ZMOD (P.n : ℤ) ^ 2] := by
    rw [← sq]
    calc (c * o % (P.n : ℤ) ^ 2) ^ P.lam
        ≡ (c * o) ^ P.lam [ZMOD (P.n : ℤ) ^ 2] := (Int.mod_modEq _ _).pow _
      _ = c ^ P.lam * o ^ P.lam := mul_pow _ _ _
      _ ≡ c ^ P.lam * 1 [ZMOD (P.n : ℤ) ^ 2] := hone.mul_left _
      _ = c ^ P.lam := mul_one _
  rw [sq] at hpow
  have hmod : powMod (c * o % ((P.n : ℤ) * P.n)) P.lam (P.n * P.n)
      = powMod c P.lam (P.n * P.n) := hpow
  rw [PrivateKey.rawPlain, hmod, PrivateKey.rawPlain]

/-- What `applyObfuscator` makes of the vector. -/
def products (ipp : Ipp) (n : ℕ) (pk : PublicKey) (cs : List ℤ) (vs : List ℕ) : List ℤ :=
  List.zipWith (fun c o => c * o % ((n : ℤ) * n)) cs (vs.map (obfuscatorOf ipp pk))

theorem mem_products_iff {n : ℕ} {pk : PublicKey} {cs : List ℤ} {vs : List ℕ} {x : ℤ} :
    x ∈ products ipp n pk cs vs ↔ ∃ (i : ℕ) (hc : i < cs.length) (hv : i < vs.length),
      x = cs[i] * obfuscatorOf ipp pk vs[i] % ((n : ℤ) * n) := by
  unfold products
  constructor
  · intro hx
    obtain ⟨i, hi, rfl⟩ := List.getElem_of_mem hx
    have hlen : i < min cs.length vs.length := by simpa using hi
    refine ⟨i, (lt_min_iff.mp hlen).1, (lt_min_iff.mp hlen).2, ?_⟩
    rw [List.getElem_zipWith, List.getElem_map]
  · rintro ⟨i, hc, hv, rfl⟩
    refine List.mem_iff_getElem.mpr ⟨i, by simpa using ⟨hc, hv⟩, ?_⟩
    rw [List.getElem_zipWith, List.getElem_map]

section
variable (h : ipp.Lawful) (P : PrimePair) {pk : PublicKey}
  (hpk : Shaped P.n pk) {cs : List ℤ} (hne : cs ≠ []) (hcs : ∀ c ∈ cs, UnitResidue P.n c)
  {vs : List ℕ} (hlen : vs.length = cs.length)

include hcs in
theorem products_units (hunits : ∀ v ∈ vs, IsCoprime (obfuscatorOf ipp pk v) (P.n : ℤ)) :
    ∀ c ∈ products ipp P.n pk cs vs, UnitResidue P.n c := by
  have hn0 : (0 : ℤ) < (P.n : ℤ) * P.n := by
    have := P.n_pos
    positivity
  intro c hc
  obtain ⟨i, hi, hv, rfl⟩ := mem_products_iff.mp hc
  have hprod := (hcs cs[i] (List.getElem_mem hi)).coprime.mul_left
    (hunits vs[i] (List.getElem_mem hv))
  exact ⟨Int.emod_nonneg _ hn0.ne', Int.emod_lt_of_pos _ hn0, isCoprime_emod_sq_iff.mpr hprod⟩

section
include hlen

theorem isCoprime_of_products (hunits : ∀ c ∈ products ipp P.n pk cs vs, UnitResidue P.n c) :
    ∀ v ∈ vs, IsCoprime (obfuscatorOf ipp pk v) (P.n : ℤ) := by
  intro v hv
  obtain ⟨i, hi, rfl⟩ := List.getElem_of_mem hv
  -- the element at the place of the draw
  have hunit := hunits _ (mem_products_iff.mpr ⟨i, hlen ▸ hi, hi, rfl⟩)
  exact (IsCoprime.mul_left_iff.mp (isCoprime_emod_sq_iff.mp hunit.coprime)).2

include hpk in
theorem products_powers (hunits : ∀ v ∈ vs, IsCoprime (obfuscatorOf ipp pk v) (P.n : ℤ)) :
    List.Forall₂ (fun c c' => ∃ o, Obfuscates P.n o ∧ c' = c * o % ((P.n : ℤ) * P.n)) cs
      (products ipp P.n pk cs vs) := by
  have hos : ∀ o ∈ vs.map (obfuscatorOf ipp pk), Obfuscates P.n o := by
    intro o ho
    obtain ⟨v, hv, rfl⟩ := List.mem_map.mp ho
    exact obfuscates_of_isCoprime P.n_pos hpk (hunits v hv)
  refine List.forall₂_iff_get.mpr ⟨by simp [products, hlen], fun i hi hi' => ?_⟩
  simp only [products, List.get_eq_getElem, List.getElem_zipWith]
  exact ⟨_, hos _ (List.getElem_mem _), rfl⟩

end

include h hpk hne hcs hlen

/-- Powers of units change the elements, but no plaintext. -/
theorem obfuscatedTo_products (hcount : vs.length < 2 ^ 31)
    (hunits : ∀ v ∈ vs, IsCoprime (obfuscatorOf ipp pk v) (P.n : ℤ)) :
    ObfuscatedTo ipp P.n (PrivateKey.ofPair ipp P) pk cs (products ipp P.n pk cs vs) := by
  have hpowers := products_powers P hpk hlen hunits
  have hunit' := products_units P hcs hunits
  refine ⟨hunit', hpowers, fun me hme crt => ?_⟩
  have hplain : (products ipp P.n pk cs vs).map (PrivateKey.rawPlain ipp P)
      = cs.map (PrivateKey.rawPlain ipp P) := by
    rw [← List.forall₂_eq_eq_eq, List.forall₂_map_left_iff, List.forall₂_map_right_iff]
    refine hpowers.flip.imp fun c' c hc => ?_
    obtain ⟨o, ho, rfl⟩ := hc
    exact rawPlain_obfuscate P ho
  have hne' : products ipp P.n pk cs vs ≠ [] := by
    rw [← List.length_pos_iff, ← hpowers.length_eq]
    exact List.length_pos_iff.mpr hne
  have hsize : (products ipp P.n pk cs vs).length < 2 ^ 31 := by
    rwa [← hpowers.length_eq, ← hlen]
  have hleft := PrivateKey.decrypt_units h hme P hpk.for_n
    (CipherText.of_ofVec pk (products ipp P.n pk cs vs)) hne' hsize hunit' crt
  have hright := PrivateKey.decrypt_units h hme P hpk.for_n (CipherText.of_ofVec pk cs) hne
    (hlen ▸ hcount) hcs crt
  exact ⟨_, hleft.trans (congrArg (fun ms => Except.ok (BaseText.ofVec ms)) hplain), hright⟩

variable {mb : Bool} {share : ℕ → ℕ} (hshare : share vs.length ≤ vs.length)
include hshare

omit hcs in
/-- The obfuscators are made where what is raised reaches the engines. -/
theorem applyObfuscator_reached {en : Engines} (hen : en.Lawful) (hcount : vs.length < 2 ^ 31)
    (hreach : Engines.Reached mb (bitLen pk.nsquare) (share vs.length)
      (vs.map (raisedFor ipp pk))) :
    applyObfuscator ipp (en.toModExp mb share) pk cs (vs.map .ok)
      = .ok (products ipp P.n pk cs vs, []) := by
  have hn : 1 < P.n := P.q_prime.one_lt.trans P.q_lt_n
  have hvs : vs ≠ [] := by
    rw [← List.length_pos_iff, hlen]
    exact List.length_pos_iff.mpr hne
  have hcall := obfuscation_call h hn P.n_odd hpk vs hvs hcount
  have hmod : ∀ t ∈ vs.map (raisedFor ipp pk), bitLen t.2.2 = bitLen pk.nsquare := fun t ht => by
    rw [hcall.modulus t ht]
  have hsize : (vs.map (raisedFor ipp pk)).length = vs.length := List.length_map _
  have hs : (en.toModExp mb share).Serves (vs.map (raisedFor ipp pk)) :=
    Engines.serves_of_reached hen hcall.admissible hmod hcall.ne_nil hcall.length_lt
      (hsize.symm ▸ hshare) (hsize.symm ▸ hreach)
  have hrun := applyObfuscator_served h hn hpk vs [] hlen hs fun _ => hcount
  rwa [List.append_nil] at hrun

omit hcs in
/-- Plaintexts are kept only of vectors that can be counted, and where what is raised reaches the
engines. -/
theorem reached_of_keeps
    (hkeeps : KeepsPlaintexts ipp mb share P.n (PrivateKey.ofPair ipp P) pk cs vs) :
    vs.length < 2 ^ 31 ∧ Engines.Reached mb (bitLen pk.nsquare) (share vs.length)
      (vs.map (raisedFor ipp pk)) := by
  have hn : 1 < P.n := P.q_prime.one_lt.trans P.q_lt_n
  have hvs : vs ≠ [] := by
    rw [← List.length_pos_iff, hlen]
    exact List.length_pos_iff.mpr hne
  obtain ⟨cs', hrun, hto⟩ := hkeeps _ (Engines.strict_lawful h true) rfl
  have hcount : vs.length < 2 ^ 31 := by
    obtain ⟨pt, -, hpt⟩ := hto.decrypts _ (ModExp.reference_lawful Short) true
    have hlt : cs.length < 2 ^ 31 := PrivateKey.lt_of_decrypt hpt
    rwa [hlen]
  refine ⟨hcount, ?_⟩
  have hcall := obfuscation_call h hn P.n_odd hpk vs hvs hcount
  have hmod : ∀ t ∈ vs.map (raisedFor ipp pk), bitLen t.2.2 = bitLen pk.nsquare := fun t ht => by
    rw [hcall.modulus t ht]
  rw [← List.append_nil (vs.map Except.ok)] at hrun
  obtain ⟨-, os, hos⟩ := parts_of_applyObfuscator hpk vs [] hlen hrun
  have hsize : (vs.map (raisedFor ipp pk)).length = vs.length := List.length_map _
  change (Engines.strict ipp true).modExp mb (share (bases (vs.map (raisedFor ipp pk))).length)
    (bases _) (exps _) (mods _) = _ at hos
  rw [List.length_map, hsize] at hos
  exact (Engines.served_iff_reached hcall.admissible hmod hcall.length_lt).mp
    (Engines.served_of_ok h hcall.admissible hmod (hsize.symm ▸ hshare)
      (by unfold Engines.qatModexpBatchSize; omega) hos)

/-- What the vector becomes is right exactly when every obfuscator is a unit and is made. -/
theorem keepsPlaintexts_iff :
    KeepsPlaintexts ipp mb share P.n (PrivateKey.ofPair ipp P) pk cs vs ↔
      (∀ v ∈ vs, IsCoprime (obfuscatorOf ipp pk v) (P.n : ℤ)) ∧ vs.length < 2 ^ 31 ∧
        Engines.Reached mb (bitLen pk.nsquare) (share vs.length)
          (vs.map (raisedFor ipp pk)) := by
  constructor
  · intro hkeeps
    obtain ⟨hcount, hreach⟩ := reached_of_keeps h P hpk hne hlen hshare hkeeps
    have hen := Engines.strict_lawful h true
    obtain ⟨cs', hcs', hto⟩ := hkeeps _ hen rfl
    rw [applyObfuscator_reached h P hpk hne hlen hshare hen hcount hreach] at hcs'
    obtain ⟨rfl, -⟩ := Prod.mk.inj (Except.ok.inj hcs')
    exact ⟨isCoprime_of_products P hlen hto.units, hcount, hreach⟩
  · rintro ⟨hunits, hcount, hreach⟩ en hen rfl
    exact ⟨_, applyObfuscator_reached h P hpk hne hlen hshare hen hcount hreach,
      obfuscatedTo_products h P hpk hne hcs hlen hcount hunits⟩

end

theorem gcdZero_reference : GcdZero Ipp.reference := by
  intro b hb
  show ((Int.gcd 0 b : ℕ) : ℤ) = b
  rw [Int.gcd_zero_left, Int.natAbs_of_nonneg hb.le]

/-- The key of 77 made with the size 1024: every draw makes a unit, and an exponent of 512 bits is
too long for the lanes. -/
theorem not_keeps_long_exponent : ∃ pk rest sk,
    new Ipp.reference ModExp.reference (7 * 11 : ℕ) 1024 true [.ok 2] = .ok (pk, rest) ∧
      (∀ v ∈ List.replicate 8 (2 ^ 511 + 1), MakesUnit (7 * 11) 1024 true v) ∧
      ¬ KeepsPlaintexts Ipp.reference true (fun _ => 0) (7 * 11) sk pk (List.replicate 8 78)
        (List.replicate 8 (2 ^ 511 + 1)) := by
  have hseven : Nat.Prime 7 := by norm_num
  have heleven : Nat.Prime 11 := by norm_num
  have hcop : Nat.gcd (7 * 11) ((7 - 1) * (11 - 1)) = 1 := by decide
  let P := PrimePair.ofPrimes hseven heleven (by decide) hcop
  obtain ⟨pk, rest, hpk, hlong⟩ : ∃ pk rest, new Ipp.reference ModExp.reference (7 * 11 : ℕ) 1024
      true [.ok 2] = .ok (pk, rest) ∧
        ¬ bitLen (raisedFor Ipp.reference pk (2 ^ 511 + 1)).2.1 ≤ bitLen pk.nsquare :=
    ⟨_, _, rfl, by decide +kernel⟩
  have hgen := generated_of_new Ipp.reference_lawful ModExp.reference_exact gcdZero_reference
    (by decide) (by decide) hpk
  refine ⟨pk, rest, PrivateKey.ofPair Ipp.reference P, hpk, by decide, fun hkeeps => ?_⟩
  obtain ⟨-, hreach⟩ := reached_of_keeps Ipp.reference_lawful P
    (hgen.toFresh.shaped (by decide)) (by decide) (by decide) (by decide) hkeeps
  have hfew : ∀ t : Triple, ((List.replicate 8 t).drop 0).length ≠ 1 := fun _ => by simp
  rw [List.map_replicate] at hreach
  exact hlong (hreach.lanes rfl (hfew _) _ List.mem_cons_self)

end PublicKey

end Ipcl
