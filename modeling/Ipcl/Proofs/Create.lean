/-
Re-creating a key.

`create` replaces the modulus and what is computed from it, and then, for the DJN mode,
draws until a value is prime to the new modulus.  The random generator may throw on any of
these draws.  What has been assigned stays, and the flag that says the key can be used is
still that of the earlier key, so the result is a key with the new modulus and the old
generator.
-/
import Ipcl.Proofs.PubKey

namespace Ipcl.PublicKey

open BigNumber

variable {ipp : Ipp} {me : ModExp}

/-! ### The draw the loop ends with -/

/-- The random value of a draw. -/
def randOf (ipp : Ipp) (n : ℤ) (v : ℕ) : ℤ := ((v % 2 ^ (bitSize ipp n + 128).toNat : ℕ) : ℤ)

/-- A round of the loop draws again. -/
def rejected (ipp : Ipp) (n : ℤ) : Result ℕ → Bool
  | .ok v => compare ipp (BigNumber.gcd ipp (randOf ipp n v) n) 1 ≠ 0
  | .error _ => false

/-- What the loop makes of the first draw that is not rejected. -/
def settled (ipp : Ipp) (n : ℤ) : Draws → Result (ℤ × Draws)
  | [] => .error .exhausted
  | .error e :: _ => .error e
  | .ok v :: rest => .ok (mod ipp (randOf ipp n v) n, rest)

theorem bitSize_nonneg (h : ipp.Lawful) (n : ℤ) : 0 ≤ bitSize ipp n := by
  by_cases hn : n = 0
  · subst hn
    rw [bitSize, msb, eq_of_nonneg h le_rfl le_rfl]
    simp
  · rw [bitSize_eq h hn]
    exact Int.natCast_nonneg _

theorem enableDJNLoop_eq (h : ipp.Lawful) (n : ℤ) : ∀ draws : Draws,
    enableDJNLoop ipp n draws.length draws
      = settled ipp n (draws.dropWhile fun d => rejected ipp n d) := by
  intro draws
  have hbits : 1 ≤ bitSize ipp n + 128 := by
    have := bitSize_nonneg h n
    omega
  have hword : ¬ bitsizeWord (bitSize ipp n + 128).toNat < 1 := by
    unfold bitsizeWord
    omega
  induction draws with
  | nil => rfl
  | cons d rest ih =>
      rw [List.length_cons, enableDJNLoop]
      cases d with
      | error e =>
          show (getRandomBN (bitSize ipp n + 128) (.error e :: rest) >>= _) = _
          rw [getRandomBN, if_neg hword]
          rfl
      | ok v =>
          show (getRandomBN (bitSize ipp n + 128) (.ok v :: rest) >>= _) = _
          rw [getRandomBN_cons hbits, List.dropWhile_cons]
          show (if compare ipp (BigNumber.gcd ipp (randOf ipp n v) n) 1 ≠ 0 then
            enableDJNLoop ipp n rest.length else pure (mod ipp (randOf ipp n v) n)) rest = _
          by_cases hrej : compare ipp (BigNumber.gcd ipp (randOf ipp n v) n) 1 ≠ 0
          · rw [if_pos hrej, if_pos (show rejected ipp n (.ok v) = true from decide_eq_true hrej)]
            exact ih
          · rw [if_neg hrej, if_neg (by simpa [rejected] using hrej)]
            rfl

theorem enableDJN_eq (h : ipp.Lawful) (pk : PublicKey) (draws : Draws) :
    enableDJN ipp me pk draws
      = (settled ipp pk.n (draws.dropWhile fun d => rejected ipp pk.n d) >>= fun r =>
          (me.one (djnGenerator ipp pk.n r.1) pk.n pk.nsquare).map fun hs =>
            ({ pk with hs := hs, randbits := pk.bits >>> (1 : ℕ), djnEnabled := true }, r.2)) := by
  rw [← enableDJNLoop_eq h]
  show (enableDJNLoop ipp pk.n draws.length draws >>= fun r => _) = _
  refine congrArg _ (funext fun r => ?_)
  show ((liftM (me.one (djnGenerator ipp pk.n r.1) pk.n pk.nsquare) : Rand ℤ) >>= _) r.2 = _
  cases me.one (djnGenerator ipp pk.n r.1) pk.n pk.nsquare <;> rfl

/-! ### When `create` throws -/

/-- The random generator throws before a value is accepted. -/
def GeneratorFails (ipp : Ipp) (n : ℤ) (draws : Draws) : Prop :=
  ∃ msg rest, (draws.dropWhile fun d => rejected ipp n d) = .error (.runtime msg) :: rest

/-- The power that makes the generator of the accepted value throws. -/
def PowerFails (ipp : Ipp) (me : ModExp) (n : ℤ) (draws : Draws) : Prop :=
  ∃ v rest, (draws.dropWhile fun d => rejected ipp n d) = .ok v :: rest ∧
    Throws (me.one (djnGenerator ipp n (mod ipp (randOf ipp n v) n)) n (mul ipp n n))

/-- For an odd modulus the power does not throw. -/
theorem not_powerFails (h : ipp.Lawful) (hme : me.OneExact) {n : ℤ} (hn : 1 < n) (hodd : Odd n)
    (draws : Draws) : ¬ PowerFails ipp me n draws := by
  intro hfails
  obtain ⟨v, rest, -, hthrows⟩ := hfails
  rw [mul_eq h, hme.one_exact _ _ _ (djnGenerator_admissible h hn hodd _)] at hthrows
  exact not_throws_ok hthrows

/-- What a call leaves, by the draw the loop ends with. -/
theorem createInto_eq (h : ipp.Lawful) (pk : PublicKey) (n bits : ℤ) (draws : Draws) :
    createInto ipp me pk n bits true draws
      = match settled ipp n (draws.dropWhile fun d => rejected ipp n d) >>= fun r =>
          (me.one (djnGenerator ipp n r.1) n (mul ipp n n)).map fun hs => (hs, r.2) with
        | .ok (hs, rest) => (.ok rest, { refilled ipp pk n bits true with
            hs := hs, randbits := bits >>> (1 : ℕ), testv := false, isInitialized := true })
        | .error e => (.error e, refilled ipp pk n bits true) := by
  have hrun : enableDJN ipp me (refilled ipp pk n bits true) draws
      = (settled ipp n (draws.dropWhile fun d => rejected ipp n d) >>= fun r =>
          (me.one (djnGenerator ipp n r.1) n (mul ipp n n)).map fun hs =>
            ({ refilled ipp pk n bits true with
              hs := hs, randbits := bits >>> (1 : ℕ), djnEnabled := true }, r.2)) :=
    enableDJN_eq h _ draws
  simp only [createInto, if_true, hrun]
  cases settled ipp n (draws.dropWhile fun d => rejected ipp n d) with
  | error e => rfl
  | ok r =>
      simp only [Result.bind_ok]
      cases me.one (djnGenerator ipp n r.1) n (mul ipp n n) <;> rfl

theorem create_throws_iff (h : ipp.Lawful) (pk : PublicKey) (n bits : ℤ) (draws : Draws) :
    Throws (createInto ipp me pk n bits true draws).1 ↔
      GeneratorFails ipp n draws ∨ PowerFails ipp me n draws := by
  rw [createInto_eq h]
  unfold GeneratorFails PowerFails
  cases hdrop : draws.dropWhile fun d => rejected ipp n d with
  | nil => simp [settled, Throws]
  | cons d rest =>
      cases d with
      | error e => simp [settled, Throws]
      | ok v =>
          simp only [settled, Result.bind_ok]
          cases hone : me.one (djnGenerator ipp n (mod ipp (randOf ipp n v) n)) n (mul ipp n n) with
          | error e => simp [Throws, Except.map, hone]
          | ok hs => simp [Throws, Except.map, hone]

/-- An exception leaves what has been assigned. -/
theorem createInto_of_throws (h : ipp.Lawful) {pk : PublicKey} {n bits : ℤ} {draws : Draws}
    (hthrows : Throws (createInto ipp me pk n bits true draws).1) :
    (createInto ipp me pk n bits true draws).2 = refilled ipp pk n bits true := by
  obtain ⟨msg, hmsg⟩ := hthrows
  rw [createInto_eq h] at hmsg ⊢
  split at hmsg
  · cases hmsg
  · rfl

/-! ### All or nothing -/

/-- What a call of `create` that throws should leave: the key as it was, which encrypts as it
did, and not the new modulus with the old generator. -/
structure AllOrNothing (ipp : Ipp) (me : ModExp) (pk : PublicKey) (n bits : ℤ) (draws : Draws) :
    Prop where
  same : Throws (createInto ipp me pk n bits true draws).1 →
    (createInto ipp me pk n bits true draws).2 = pk
  encrypts : Throws (createInto ipp me pk n bits true draws).1 →
    ∀ pt makeSecure, encrypt ipp me (createInto ipp me pk n bits true draws).2 pt makeSecure
      = encrypt ipp me pk pt makeSecure
  unmixed : Throws (createInto ipp me pk n bits true draws).1 → pk.n ≠ n →
    ¬ ((createInto ipp me pk n bits true draws).2.isInitialized = true ∧
      (createInto ipp me pk n bits true draws).2.n = n ∧
      (createInto ipp me pk n bits true draws).2.hs = pk.hs ∧
      (createInto ipp me pk n bits true draws).2.randbits = pk.randbits)

/-- The key already is what `create` makes of it before it draws. -/
structure AlreadyThere (ipp : Ipp) (pk : PublicKey) (n bits : ℤ) : Prop where
  n_eq : pk.n = n
  g_eq : pk.g = add32 ipp n 1
  nsquare_eq : pk.nsquare = mul ipp n n
  bits_eq : pk.bits = bits
  dwords_eq : pk.dwords = (bits * 2 + 63) >>> (6 : ℕ)
  djn_eq : pk.djnEnabled = true

theorem refilled_eq_iff {pk : PublicKey} {n bits : ℤ} :
    refilled ipp pk n bits true = pk ↔ AlreadyThere ipp pk n bits := by
  cases pk
  simp only [refilled, mk.injEq, true_and, and_true]
  constructor
  · intro heq
    obtain ⟨rfl, rfl, rfl, rfl, rfl, rfl⟩ := heq
    exact ⟨rfl, rfl, rfl, rfl, rfl, rfl⟩
  · intro hthere
    exact ⟨hthere.n_eq.symm, hthere.g_eq.symm, hthere.nsquare_eq.symm, hthere.bits_eq.symm,
      hthere.dwords_eq.symm, hthere.djn_eq.symm⟩

/-- **A call that throws leaves the key alone exactly when it had nothing to assign; the others
are those in which neither the random generator nor the power of the accepted value throws.** -/
theorem create_all_or_nothing_iff (h : ipp.Lawful) (pk : PublicKey) (n bits : ℤ) (draws : Draws) :
    AllOrNothing ipp me pk n bits draws ↔
      AlreadyThere ipp pk n bits ∨
        (¬ GeneratorFails ipp n draws ∧ ¬ PowerFails ipp me n draws) := by
  rw [← not_or, ← create_throws_iff h pk n bits, ← refilled_eq_iff]
  constructor
  · intro hall
    by_cases hthrows : Throws (createInto ipp me pk n bits true draws).1
    · left
      rw [← createInto_of_throws h hthrows]
      exact hall.same hthrows
    · exact .inr hthrows
  · intro hcond
    have hsame : Throws (createInto ipp me pk n bits true draws).1 →
        (createInto ipp me pk n bits true draws).2 = pk := by
      intro hthrows
      rw [createInto_of_throws h hthrows]
      exact hcond.resolve_right (not_not_intro hthrows)
    refine ⟨hsame, fun hthrows pt makeSecure => ?_, fun hthrows hne hmixed => ?_⟩
    · rw [hsame hthrows]
    · rw [hsame hthrows] at hmixed
      exact hne hmixed.2.1

/-- A key of 15 in DJN mode. -/
def djnFifteen : PublicKey :=
  { ofModulus 15 with bits := 4, dwords := 1, hs := 199, randbits := 2, djnEnabled := true }

/-- It is re-created as one of 21, and the first draw, which is 3, is rejected. -/
theorem create_all_or_nothing_twenty_one :
    AllOrNothing Ipp.reference ModExp.reference djnFifteen 21 5 [.ok 3, .ok 2] := by
  refine (create_all_or_nothing_iff Ipp.reference_lawful djnFifteen 21 5 _).mpr (.inr ⟨?_, ?_⟩)
  · intro hfails
    obtain ⟨msg, rest, hdrop⟩ := hfails
    have haccept : [.ok 3, .ok 2].dropWhile (fun d => rejected Ipp.reference 21 d) = [.ok 2] := by
      decide +kernel
    rw [haccept] at hdrop
    cases hdrop
  · exact not_powerFails Ipp.reference_lawful ModExp.reference_exact (by decide) (by decide) _

/-- The same call where the generator throws on the second draw: what is left is a key of 21
that can be used and has the generator and the number of random bits of the key of 15. -/
theorem not_create_all_or_nothing :
    ¬ AllOrNothing Ipp.reference ModExp.reference djnFifteen 21 5 [.ok 3,
        .error (.runtime "getRandomBN:  generate random big number error.")] ∧
      (createInto Ipp.reference ModExp.reference djnFifteen 21 5 true [.ok 3,
          .error (.runtime "getRandomBN:  generate random big number error.")]).2
        = { ofModulus 21 with
            bits := 5, dwords := 1, hs := 199, randbits := 2, djnEnabled := true } := by
  have hend : createInto Ipp.reference ModExp.reference djnFifteen 21 5 true [.ok 3,
      .error (.runtime "getRandomBN:  generate random big number error.")]
      = (.error (.runtime "getRandomBN:  generate random big number error."),
        { ofModulus 21 with
          bits := 5, dwords := 1, hs := 199, randbits := 2, djnEnabled := true }) := by
    decide +kernel
  refine ⟨fun hall => ?_, congrArg Prod.snd hend⟩
  have hsame := hall.same
  rw [hend] at hsame
  exact absurd (congrArg PublicKey.n (hsame ⟨_, rfl⟩)) (by decide)

end Ipcl.PublicKey
