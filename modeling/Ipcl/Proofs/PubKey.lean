/-
What encryption produces.

A key is ready when the constructor built it and its obfuscators are `n`-th powers
of units: in normal mode they are that by their form, as soon as the base drawn is
a unit, in DJN mode because the generator is itself an `n`-th power, so that
every power of it is one.  Encrypting under a ready key then yields, for every
plaintext, a residue modulo `n ^ 2` that encrypts it.
-/
import Ipcl.PubKey
import Ipcl.Lib.Supply
import Ipcl.Proofs.CipherText
import Ipcl.Proofs.PriKey

namespace Ipcl

open BigNumber Paillier Supply

namespace PublicKey

variable {ipp : Ipp} {me : ModExp} (h : ipp.Lawful)

/-! ### Keys from the constructor -/

/-- A key that has a modulus and nothing else. -/
def ofModulus (n : ℤ) : PublicKey where
  isInitialized := true
  n := n
  g := n + 1
  nsquare := n * n
  bits := 0
  dwords := 0
  hs := 0
  randbits := 0
  djnEnabled := false
  r := []
  testv := false

/-- What the constructor leaves in a key. -/
structure Fresh (n : ℕ) (bits : ℤ) (djn : Bool) (pk : PublicKey) : Prop where
  for_n : pk.For n
  initialized : pk.isInitialized = true
  testv : pk.testv = false
  bits_eq : pk.bits = bits
  djn_eq : pk.djnEnabled = djn
  generator : djn = true → pk.randbits = bits >>> (1 : ℕ) ∧ ∃ g : ℤ, pk.hs = powMod g n (n * n)

include h

/-- The generator is a residue. -/
theorem djnGenerator_admissible {n : ℤ} (hn : 1 < n) (hodd : Odd n) (rmod : ℤ) :
    Admissible (djnGenerator ipp n rmod) n (n * n) := by
  have hlt := Int.emod_lt_of_pos (mul32 ipp (mul ipp rmod rmod) 0xFFFFFFFF) (by omega : 0 < n)
  rw [djnGenerator, mod_eq h _ (by omega)]
  exact ⟨hodd.mul hodd, Int.emod_nonneg _ (by omega), by nlinarith, by omega⟩

section
variable (hme : me.OneExact)
include hme

theorem enableDJN_returns {n : ℕ} (hn : 1 < n) (hodd : Odd n) {pk : PublicKey}
    (hpk : pk.For n) :
    Returns (fun _ => True) (enableDJN ipp me pk) fun pk' => ∃ g : ℤ,
      pk' = { pk with
        hs := powMod g n (n * n), randbits := pk.bits >>> (1 : ℕ), djnEnabled := true } := by
  unfold enableDJN
  refine (Returns.trivial _).bind fun draws _ => ?_
  refine (Returns.trivial _).bind fun rmod _ => ?_
  have hadm := @djnGenerator_admissible ipp h n (by exact_mod_cast hn) (by exact_mod_cast hodd) rmod
  show Returns _ (liftM (me.one (djnGenerator ipp pk.n rmod) pk.n pk.nsquare) >>= _) _
  rw [hpk.n_eq, hpk.nsquare_eq, hme.one_exact _ _ _ hadm]
  refine (Returns.lift (Q := fun hs => ∃ g : ℤ, hs = powMod g n (n * n)) ?_).bind ?_
  · intro hs hok
    exact ⟨djnGenerator ipp n rmod, (Except.ok.inj hok).symm⟩
  · intro hs hgen
    obtain ⟨g, rfl⟩ := hgen
    exact Returns.pure ⟨g, rfl⟩

theorem new_returns {n : ℕ} (hn : 1 < n) (hodd : Odd n) (bits : ℤ) (djn : Bool) :
    Returns (fun _ => True) (new ipp me n bits djn) (Fresh n bits djn) := by
  have hfor : ∀ pk : PublicKey, pk.n = n → pk.g = add32 ipp n 1 → pk.nsquare = mul ipp n n →
      pk.For n := by
    intro pk hpn hg hsq
    refine ⟨hpn, ?_, ?_⟩
    · rw [hsq, mul_eq h]
    · rw [hg, add32_eq h]
      rfl
  cases djn with
  | false => exact Returns.pure ⟨hfor _ rfl rfl rfl, rfl, rfl, rfl, rfl, nofun⟩
  | true =>
      refine (enableDJN_returns h hme hn hodd (hfor _ rfl rfl rfl)).bind ?_
      intro pk hgen
      obtain ⟨g, rfl⟩ := hgen
      exact Returns.pure ⟨hfor _ rfl rfl rfl, rfl, rfl, rfl, rfl, fun _ => ⟨rfl, g, rfl⟩⟩

end

omit h

/-! ### Keys whose obfuscators are units -/

/-- A key encryption is correct under, given good draws. -/
structure Ready (n : ℕ) (pk : PublicKey) : Prop where
  for_n : pk.For n
  initialized : pk.isInitialized = true
  testv : pk.testv = false
  normal : pk.djnEnabled = false → 1 ≤ pk.bits
  djn : pk.djnEnabled = true → 1 ≤ pk.randbits
  generator : pk.djnEnabled = true → ∃ g : ℤ, pk.hs = powMod g n (n * n) ∧ IsCoprime g (n : ℤ)

/-- A generator that is a unit is the power of a unit. -/
theorem isCoprime_of_powMod {n : ℕ} (hn : 0 < n) {g : ℤ}
    (hg : IsCoprime (powMod g n (n * n)) (n : ℤ)) : IsCoprime g (n : ℤ) := by
  have hmod : g ^ n ≡ powMod g n (n * n) [ZMOD (n : ℤ) ^ 2] := by
    rw [sq]
    exact (powMod_modEq g n _).symm
  exact (IsCoprime.pow_left_iff hn).mp (isCoprime_of_modEq_sq hg hmod)

theorem Fresh.ready {n : ℕ} (hn : 0 < n) {bits : ℤ} (hbits : 2 ≤ bits) {djn : Bool}
    {pk : PublicKey} (hpk : Fresh n bits djn pk)
    (hhs : djn = true → IsCoprime pk.hs (n : ℤ)) : Ready n pk where
  for_n := hpk.for_n
  initialized := hpk.initialized
  testv := hpk.testv
  normal _ := by
    rw [hpk.bits_eq]
    omega
  djn hdjn := by
    rw [(hpk.generator (hpk.djn_eq ▸ hdjn)).1, Int.shiftRight_eq_div_pow]
    omega
  generator hdjn := by
    have hdjn' : djn = true := hpk.djn_eq ▸ hdjn
    obtain ⟨-, g, hg⟩ := hpk.generator hdjn'
    refine ⟨g, hg, isCoprime_of_powMod hn ?_⟩
    rw [← hg]
    exact hhs hdjn'

/-! ### Obfuscators -/

/-- A draw that gives, in normal mode, a base prime to the modulus. -/
def GoodDraw (ipp : Ipp) (pk : PublicKey) (d : Result ℕ) : Prop :=
  ∃ v, d = .ok v ∧ (pk.djnEnabled = false →
    IsCoprime (normalBase ipp pk.n ((v % 2 ^ pk.bits.toNat : ℕ) : ℤ)) pk.n)

/-- A key as the constructor leaves it, with random values of at least one bit. -/
structure Shaped (n : ℕ) (pk : PublicKey) : Prop where
  for_n : pk.For n
  testv : pk.testv = false
  normal : pk.djnEnabled = false → 1 ≤ pk.bits
  djn : pk.djnEnabled = true → 1 ≤ pk.randbits
  generator : pk.djnEnabled = true → ∃ g : ℤ, pk.hs = powMod g n (n * n)

theorem Ready.shaped {n : ℕ} {pk : PublicKey} (hpk : Ready n pk) : Shaped n pk where
  for_n := hpk.for_n
  testv := hpk.testv
  normal := hpk.normal
  djn := hpk.djn
  generator hdjn := by
    obtain ⟨g, hg, -⟩ := hpk.generator hdjn
    exact ⟨g, hg⟩

/-- The obfuscator made of a draw. -/
def obfuscatorOf (ipp : Ipp) (pk : PublicKey) (v : ℕ) : ℤ :=
  if pk.djnEnabled then powMod pk.hs ((v % 2 ^ pk.randbits.toNat : ℕ) : ℤ) pk.nsquare
  else powMod (normalBase ipp pk.n ((v % 2 ^ pk.bits.toNat : ℕ) : ℤ)) pk.n pk.nsquare

/-- A loop that makes a value of every draw. -/
theorem mapM_draws {α β : Type} {bits : ℤ} (hbits : 1 ≤ bits) (f : ℤ → β) (rest : Draws) :
    ∀ (xs : List α) (vs : List ℕ), xs.length = vs.length →
      (xs.mapM fun _ => do
        let rand ← getRandomBN bits
        pure (f rand) : Rand (List β)) (vs.map .ok ++ rest)
        = .ok (vs.map fun v => f ((v % 2 ^ bits.toNat : ℕ) : ℤ), rest) := by
  intro xs
  induction xs with
  | nil =>
      intro vs hlen
      rw [List.eq_nil_of_length_eq_zero hlen.symm]
      rfl
  | cons x xs ih =>
      intro vs hlen
      match vs, hlen with
      | v :: vs, hlen =>
          simp only [List.mapM_cons, List.map_cons, List.cons_append, bind_assoc, pure_bind]
          show (getRandomBN bits (.ok v :: (vs.map .ok ++ rest)) >>= fun r => _) = _
          rw [getRandomBN_cons hbits]
          show ((xs.mapM fun _ => do
            let rand ← getRandomBN bits
            pure (f rand) : Rand (List β)) (vs.map .ok ++ rest) >>= fun r => _) = _
          rw [ih vs (Nat.succ.inj hlen)]
          rfl

/-- What is raised for a draw. -/
def raisedFor (ipp : Ipp) (pk : PublicKey) (v : ℕ) : Triple :=
  if pk.djnEnabled then (pk.hs, ((v % 2 ^ pk.randbits.toNat : ℕ) : ℤ), pk.nsquare)
  else (normalBase ipp pk.n ((v % 2 ^ pk.bits.toNat : ℕ) : ℤ), pk.n, pk.nsquare)

theorem power_raisedFor (ipp : Ipp) (pk : PublicKey) (v : ℕ) :
    (raisedFor ipp pk v).power = obfuscatorOf ipp pk v := by
  unfold raisedFor obfuscatorOf
  split_ifs <;> rfl

theorem raisedFor_modulus (ipp : Ipp) (pk : PublicKey) (v : ℕ) :
    (raisedFor ipp pk v).2.2 = pk.nsquare := by
  unfold raisedFor
  split_ifs <;> rfl

/-- The counter of the loop that draws in normal mode. -/
def drawLoop (pk : PublicKey) (sz : ℕ) : Result Unit :=
  if pk.djnEnabled then .ok () else intLoop sz

section
variable {n : ℕ} (hn : 1 < n) (hodd : Odd n) {pk : PublicKey} (hpk : Shaped n pk)
  (vs : List ℕ) (rest : Draws)

section
include hpk

variable (ipp) in
theorem getDJNObfuscator_draws (hdjn : pk.djnEnabled = true) :
    getDJNObfuscator me pk vs.length (vs.map .ok ++ rest)
      = (do
          let os ← me.vec (bases (vs.map (raisedFor ipp pk))) (exps (vs.map (raisedFor ipp pk)))
            (mods (vs.map (raisedFor ipp pk)))
          pure (os, rest)) := by
  have hdraw := mapM_draws (hpk.djn hdjn) id rest (List.range vs.length) vs List.length_range
  have hraised : raisedFor ipp pk
      = fun v => (pk.hs, ((v % 2 ^ pk.randbits.toNat : ℕ) : ℤ), pk.nsquare) := by
    funext v
    rw [raisedFor, if_pos hdjn]
  have hconst : ∀ x : ℤ, vs.map (fun _ => x) = List.replicate vs.length x := fun x =>
    List.map_const' ..
  unfold getDJNObfuscator
  rw [hpk.testv]
  show ((List.range vs.length).mapM (fun _ => getRandomBN pk.randbits) (vs.map .ok ++ rest) >>=
    fun r => (liftM (me.vec _ r.1 _) : Rand (List ℤ)) r.2) = _
  simp only [id, bind_pure] at hdraw
  rw [hdraw, Result.bind_ok, hraised]
  simp only [List.map_map, Function.comp_def, hconst]
  rfl

theorem getNormalObfuscator_draws (hdjn : pk.djnEnabled = false) :
    getNormalObfuscator ipp me pk vs.length (vs.map .ok ++ rest)
      = (do
          intLoop vs.length
          let os ← me.vec (bases (vs.map (raisedFor ipp pk))) (exps (vs.map (raisedFor ipp pk)))
            (mods (vs.map (raisedFor ipp pk)))
          pure (os, rest)) := by
  have hdraw := mapM_draws (hpk.normal hdjn) (normalBase ipp pk.n) rest (List.range vs.length) vs
    List.length_range
  have hraised : raisedFor ipp pk = fun v =>
      (normalBase ipp pk.n ((v % 2 ^ pk.bits.toNat : ℕ) : ℤ), pk.n, pk.nsquare) := by
    funext v
    rw [raisedFor, if_neg (by simp [hdjn])]
  have hconst : ∀ x : ℤ, vs.map (fun _ => x) = List.replicate vs.length x := fun x =>
    List.map_const' ..
  unfold getNormalObfuscator
  rw [hpk.testv]
  by_cases hlen : vs.length < 2 ^ 31
  · rw [intLoop_ok hlen]
    show ((List.range vs.length).mapM (fun _ => getRandomBN pk.bits >>= fun rand =>
        pure (normalBase ipp pk.n rand)) (vs.map .ok ++ rest) >>=
      fun r => (liftM (me.vec r.1 _ _) : Rand (List ℤ)) r.2) = _
    rw [hdraw, Result.bind_ok, hraised]
    simp only [List.map_map, Function.comp_def, hconst, Result.bind_ok]
    rfl
  · rw [intLoop, if_neg hlen]
    rfl

/-- What obfuscating does with a vector and as many draws. -/
theorem applyObfuscator_draws {cs : List ℤ} (hlen : vs.length = cs.length) :
    applyObfuscator ipp me pk cs (vs.map .ok ++ rest) = (do
      drawLoop pk vs.length
      let os ← me.vec (bases (vs.map (raisedFor ipp pk))) (exps (vs.map (raisedFor ipp pk)))
        (mods (vs.map (raisedFor ipp pk)))
      let cs' ← (List.range cs.length).mapM fun i => do
        let c ← elemAt cs i
        let o ← elemAt os i
        pure (modMul ipp pk.nsquare c o)
      pure (cs', rest)) := by
  unfold applyObfuscator drawLoop
  cases hdjn : pk.djnEnabled with
  | true =>
      show (getDJNObfuscator me pk cs.length (vs.map .ok ++ rest) >>= fun r => _) = _
      rw [← hlen, getDJNObfuscator_draws ipp hpk vs rest hdjn]
      cases me.vec (bases (vs.map (raisedFor ipp pk))) (exps (vs.map (raisedFor ipp pk)))
          (mods (vs.map (raisedFor ipp pk))) with
      | error e => rfl
      | ok os => rfl
  | false =>
      show (getNormalObfuscator ipp me pk cs.length (vs.map .ok ++ rest) >>= fun r => _) = _
      rw [← hlen, getNormalObfuscator_draws hpk vs rest hdjn]
      cases intLoop vs.length with
      | error e => rfl
      | ok _ =>
          cases me.vec (bases (vs.map (raisedFor ipp pk))) (exps (vs.map (raisedFor ipp pk)))
              (mods (vs.map (raisedFor ipp pk))) with
          | error e => rfl
          | ok os => rfl

/-- A vector that has been obfuscated has gone through the loop and the exponentiation. -/
theorem parts_of_applyObfuscator {cs : List ℤ} (hlen : vs.length = cs.length) {r : List ℤ × Draws}
    (hok : applyObfuscator ipp me pk cs (vs.map .ok ++ rest) = .ok r) :
    (pk.djnEnabled = false → vs.length < 2 ^ 31) ∧
      ∃ os, me.vec (bases (vs.map (raisedFor ipp pk))) (exps (vs.map (raisedFor ipp pk)))
        (mods (vs.map (raisedFor ipp pk))) = .ok os := by
  rw [applyObfuscator_draws hpk vs rest hlen] at hok
  obtain ⟨_, hloop, hok⟩ := Result.of_bind_ok hok
  obtain ⟨os, hvec, -⟩ := Result.of_bind_ok hok
  refine ⟨fun hdjn => ?_, os, hvec⟩
  rw [drawLoop, if_neg (by simp [hdjn])] at hloop
  by_contra hlong
  rw [intLoop, if_neg hlong] at hloop
  cases hloop

end

section
include h

theorem normalBase_eq (hn : 1 < n) (v : ℕ) :
    normalBase ipp n v = ((v % (n - 1) + 1 : ℕ) : ℤ) := by
  have hsub : sub32 ipp n 1 = ((n - 1 : ℕ) : ℤ) := by
    rw [PrivateKey.sub32_one h (by omega)]
    omega
  rw [normalBase, hsub, mod_eq h _ (by omega), add32_eq h]
  rfl

theorem normalBase_range (hn : 1 < n) (v : ℕ) :
    1 ≤ normalBase ipp n v ∧ normalBase ipp n v < n := by
  have hlt := Nat.mod_lt v (by omega : 0 < n - 1)
  rw [normalBase_eq h hn]
  omega

include hn hodd hpk

theorem raisedFor_admissible (v : ℕ) : Admissible (raisedFor ipp pk v).1 (raisedFor ipp pk v).2.1
    (raisedFor ipp pk v).2.2 := by
  have hn1 : (1 : ℤ) < n := by exact_mod_cast hn
  have hodd2 : Odd ((n : ℤ) * n) := by exact_mod_cast hodd.mul hodd
  unfold raisedFor
  by_cases hdjn : pk.djnEnabled = true
  · obtain ⟨g, hg⟩ := hpk.generator hdjn
    rw [if_pos hdjn, hg, hpk.for_n.nsquare_eq]
    exact ⟨hodd2, powMod_nonneg (by nlinarith), powMod_lt (by nlinarith), Int.natCast_nonneg _⟩
  · obtain ⟨h1, h2⟩ := normalBase_range h hn (v % 2 ^ pk.bits.toNat)
    rw [if_neg hdjn, hpk.for_n.n_eq, hpk.for_n.nsquare_eq]
    have hlt : normalBase ipp n ((v % 2 ^ pk.bits.toNat : ℕ) : ℤ) < n * n := by nlinarith
    exact ⟨hodd2, by omega, hlt, Int.natCast_nonneg n⟩

omit h hodd in
/-- In normal mode the exponent is `n`.  In DJN mode it has as many bits as are drawn. -/
theorem raisedFor_short
    (hbits : pk.djnEnabled = true → pk.randbits.toNat ≤ bitLen pk.nsquare) (v : ℕ) :
    Short (raisedFor ipp pk v) := by
  unfold raisedFor
  by_cases hdjn : pk.djnEnabled = true
  · rw [if_pos hdjn]
    refine le_trans ?_ (hbits hdjn)
    show bitLen ((v % 2 ^ pk.randbits.toNat : ℕ) : ℤ) ≤ _
    have hpos : 0 < pk.randbits.toNat := by
      have := hpk.djn hdjn
      omega
    by_cases hzero : v % 2 ^ pk.randbits.toNat = 0
    · rw [hzero]
      exact hpos
    · unfold bitLen
      rw [Int.natAbs_natCast]
      exact (Nat.log2_lt hzero).mpr (Nat.mod_lt _ (by positivity))
  · rw [if_neg hdjn, hpk.for_n.n_eq, hpk.for_n.nsquare_eq]
    exact short_of_le (Int.natCast_nonneg n) (by nlinarith)

/-- The call that makes the obfuscators. -/
theorem obfuscation_call (hvs : vs ≠ []) (hlen : vs.length < 2 ^ 31) :
    ModExp.Call pk.nsquare (vs.map (raisedFor ipp pk)) where
  ne_nil := by simpa using hvs
  length_lt := by rwa [List.length_map]
  modulus t ht := by
    obtain ⟨v, -, rfl⟩ := List.mem_map.mp ht
    exact raisedFor_modulus ipp pk v
  admissible t ht := by
    obtain ⟨v, -, rfl⟩ := List.mem_map.mp ht
    exact raisedFor_admissible h hn hodd hpk v

omit hodd in
/-- What obfuscating makes of a vector and as many draws, where the powers are returned. -/
theorem applyObfuscator_served {cs : List ℤ} (hlen : vs.length = cs.length)
    (hs : me.Serves (vs.map (raisedFor ipp pk)))
    (hcount : pk.djnEnabled = false → vs.length < 2 ^ 31) :
    applyObfuscator ipp me pk cs (vs.map .ok ++ rest)
      = .ok (List.zipWith (fun c o => c * o % ((n : ℤ) * n)) cs (vs.map (obfuscatorOf ipp pk)),
          rest) := by
  have hsq : (0 : ℤ) < pk.nsquare := by
    have hn1 : (1 : ℤ) < n := by exact_mod_cast hn
    rw [hpk.for_n.nsquare_eq]
    nlinarith
  have hfun : modMul ipp pk.nsquare = fun c o : ℤ => c * o % ((n : ℤ) * n) := by
    funext c o
    rw [modMul_eq h c o hsq, hpk.for_n.nsquare_eq]
  have hpow : powers (vs.map (raisedFor ipp pk)) = vs.map (obfuscatorOf ipp pk) := by
    rw [powers, List.map_map]
    exact List.map_congr_left fun v _ => power_raisedFor ipp pk v
  have hloop := mapM_elemAt₂ (modMul ipp pk.nsquare) (rfl : cs.length = cs.length)
    (by rw [List.length_map, hlen] : (vs.map (obfuscatorOf ipp pk)).length = cs.length)
  have hdraw : drawLoop pk vs.length = .ok () := by
    unfold drawLoop
    by_cases hdjn : pk.djnEnabled = true
    · rw [if_pos hdjn]
    · rw [if_neg hdjn, intLoop_ok (hcount (Bool.eq_false_of_not_eq_true hdjn))]
  rw [applyObfuscator_draws hpk vs rest hlen, hdraw, Result.bind_ok,
    show me.vec _ _ _ = .ok (powers (vs.map (raisedFor ipp pk))) from hs, Result.bind_ok, hpow,
    hloop, Result.bind_ok, hfun]
  rfl

end

end

/-! ### Encryption -/

section
variable {takes : Triple → Prop} (hme : me.Lawful takes) {n : ℕ} (hn : 1 < n) (hodd : Odd n)
  {pk : PublicKey} (hpk : Ready n pk) (htakes : ∀ v, takes (raisedFor ipp pk v))
include h hme hn hodd hpk htakes

omit h hme hn hodd hpk htakes in
theorem forall₂_zipWith_obfuscate (hpos : 0 < n) {cs ms : List ℤ}
    (hcs : List.Forall₂ (Cipher n) cs ms) :
    ∀ {os : List ℤ}, os.length = cs.length → (∀ o ∈ os, Obfuscates n o) →
      List.Forall₂ (Cipher n) (List.zipWith (fun c o => c * o % ((n : ℤ) * n)) cs os) ms := by
  induction hcs with
  | nil => simp
  | cons hc _ ih =>
      intro os hlen hos
      match os, hlen with
      | o :: rest, hlen =>
          rw [List.zipWith_cons_cons]
          refine List.Forall₂.cons ?_
            (ih (by simpa using hlen) fun o' ho' => hos o' (by simp [ho']))
          exact Cipher.of_encrypts hpos (hc.encrypts.obfuscate (hos o (by simp)))

omit h hme hn hodd hpk htakes in
/-- Every power of an `n`-th power is one. -/
theorem obfuscates_powMod {g : ℤ} {e : ℕ} (hg : IsCoprime (g ^ e) (n : ℤ)) :
    Obfuscates n (powMod (powMod g n (n * n)) e (n * n)) := by
  rw [← sq]
  refine ⟨g ^ e, hg, ?_⟩
  calc powMod (powMod g n ((n : ℤ) ^ 2)) e ((n : ℤ) ^ 2)
      ≡ powMod g n ((n : ℤ) ^ 2) ^ e [ZMOD (n : ℤ) ^ 2] := powMod_modEq _ _ _
    _ ≡ (g ^ n) ^ e [ZMOD (n : ℤ) ^ 2] := (powMod_modEq g n _).pow _
    _ = (g ^ e) ^ n := by rw [← pow_mul, ← pow_mul, mul_comm]

omit h hme hn hodd htakes in
/-- A good draw makes the power of a unit. -/
theorem obfuscates_obfuscatorOf {v : ℕ} (hv : GoodDraw ipp pk (.ok v)) :
    Obfuscates n (obfuscatorOf ipp pk v) := by
  unfold obfuscatorOf
  rw [hpk.for_n.nsquare_eq]
  by_cases hdjn : pk.djnEnabled = true
  · obtain ⟨g, hg, hcop⟩ := hpk.generator hdjn
    rw [if_pos hdjn, hg]
    exact obfuscates_powMod hcop.pow_left
  · obtain ⟨w, hw, hcop⟩ := hv
    cases hw
    rw [hpk.for_n.n_eq] at hcop
    rw [if_neg hdjn, hpk.for_n.n_eq, ← sq]
    exact ⟨_, hcop (Bool.eq_false_of_not_eq_true hdjn), powMod_modEq _ n _⟩

omit h hme hn hodd hpk htakes in
theorem exists_values : ∀ {draws : Draws}, (∀ d ∈ draws, GoodDraw ipp pk d) →
    ∃ vs : List ℕ, draws = vs.map .ok ∧ ∀ v ∈ vs, GoodDraw ipp pk (.ok v) := by
  intro draws
  induction draws with
  | nil => exact fun _ => ⟨[], rfl, nofun⟩
  | cons d rest ih =>
      intro hgood
      obtain ⟨vs, rfl, hvs⟩ := ih fun d' hd' => hgood d' (by simp [hd'])
      obtain ⟨v, rfl, -⟩ := hgood d (by simp)
      refine ⟨v :: vs, rfl, fun w hw => ?_⟩
      rcases List.mem_cons.mp hw with rfl | hw
      · exact hgood _ (by simp)
      · exact hvs w hw

/-- Obfuscating changes no plaintext. -/
theorem applyObfuscator_yields {cs ms : List ℤ} (hne : cs ≠ []) (hcount : cs.length < 2 ^ 31)
    (hcs : List.Forall₂ (Cipher n) cs ms) :
    Yields (GoodDraw ipp pk) (applyObfuscator ipp me pk cs) cs.length
      (fun cs' => List.Forall₂ (Cipher n) cs' ms) := by
  intro supply hlen hgood
  obtain ⟨ws, rfl, hws⟩ := exists_values hgood
  rw [List.length_map] at hlen
  have htake : (ws.take cs.length).length = cs.length := List.length_take_of_le hlen
  have hvs : ws.take cs.length ≠ [] := by
    rw [← List.length_pos_iff, htake]
    exact List.length_pos_iff.mpr hne
  have hserved : me.Serves ((ws.take cs.length).map (raisedFor ipp pk)) := by
    refine hme.vec_exact _ _ (obfuscation_call h hn hodd hpk.shaped _ hvs (htake.symm ▸ hcount)) ?_
    intro t ht
    obtain ⟨v, -, rfl⟩ := List.mem_map.mp ht
    exact htakes v
  have hrun := applyObfuscator_served h hn hpk.shaped _ ((ws.drop cs.length).map .ok) htake
    hserved fun _ => htake.symm ▸ hcount
  rw [← List.map_append, List.take_append_drop, List.map_drop] at hrun
  refine ⟨_, hrun, forall₂_zipWith_obfuscate (by omega) hcs (by rw [List.length_map, htake]) ?_⟩
  intro o ho
  obtain ⟨v, hv, rfl⟩ := List.mem_map.mp ho
  exact obfuscates_obfuscatorOf hpk (hws v (List.mem_of_mem_take hv))

/-- The draws an encryption uses. -/
def drawsOf (pt : List ℤ) (makeSecure : Bool) : ℕ := if makeSecure then pt.length else 0

theorem rawEncrypt_yields {pt : List ℤ} (hne : pt ≠ []) {makeSecure : Bool}
    (hcount : makeSecure = true → pt.length < 2 ^ 31) :
    Yields (GoodDraw ipp pk) (rawEncrypt ipp me pk pt makeSecure) (drawsOf pt makeSecure)
      (fun cs => List.Forall₂ (Cipher n) cs pt) := by
  have hsq : (0 : ℤ) < (n : ℤ) * n := by
    have hn1 : (1 : ℤ) < n := by exact_mod_cast hn
    nlinarith
  have hplain : List.Forall₂ (Cipher n)
      (pt.map fun m => mod ipp (add32 ipp (mul ipp pk.n m) 1) pk.nsquare) pt := by
    rw [List.forall₂_map_left_iff, List.forall₂_same]
    intro m _
    rw [hpk.for_n.n_eq, hpk.for_n.nsquare_eq, mul_eq h, add32_eq h, mod_eq h _ hsq]
    have hfresh := Cipher.of_encrypts (by omega) (Encrypts.fresh n m)
    rwa [add_comm] at hfresh
  cases makeSecure with
  | false => exact Yields.pure hplain
  | true =>
      have hobf := applyObfuscator_yields h hme hn hodd hpk htakes (by simpa using hne)
        (by simpa using hcount rfl) hplain
      rw [List.length_map] at hobf
      exact hobf

theorem encrypt_yields {pt : List ℤ} (hne : pt ≠ []) {makeSecure : Bool}
    (hcount : makeSecure = true → pt.length < 2 ^ 31) :
    Yields (GoodDraw ipp pk) (encrypt ipp me pk (BaseText.ofVec pt) makeSecure)
      (drawsOf pt makeSecure)
      (fun ct => CipherText.Of pk ct ∧ List.Forall₂ (Cipher n) ct.texts pt) := by
  have hpos : 0 < pt.length := List.length_pos_iff.mpr hne
  have hraw := rawEncrypt_yields h hme hn hodd hpk htakes hne hcount
  have hdone := hraw.bind (l := 0) (f := fun cs => pure (CipherText.ofVec pk cs))
    (S := fun ct => CipherText.Of pk ct ∧ List.Forall₂ (Cipher n) ct.texts pt)
    fun cs hcs => Yields.pure ⟨CipherText.of_ofVec pk cs, hcs⟩
  unfold encrypt
  rw [hpk.initialized]
  simpa [BaseText.getSize, BaseText.getTexts, BaseText.ofVec, hpos] using hdone

end

end PublicKey

end Ipcl
