/-
Random values from outside.

`setRandom` is there so that a test can say which random values an encryption uses.  The
values are appended to a vector that nothing empties, and the vector goes to `modExp` as it
is, next to two vectors of the plaintext's length.  So the values are the right ones only
for the first call in the life of a key, and only when there are as many as plaintexts.

A history is a run of a system whose state is the key together with an account of what was
last given to `setRandom` since the key was created.  In a run that gives values once, and
encrypts as many plaintexts as it gave values, the account is what the key holds.
-/
import Ipcl.Lib.Transition
import Ipcl.Proofs.Create
import Ipcl.Proofs.ModExp

namespace Ipcl

open BigNumber

namespace Engines

variable {en : Engines}

/-! ### Lengths -/

theorem length_copyTo {α : Type} {buff src res : List α} {off : ℕ}
    (h : copyTo buff off src = .ok res) : res.length = buff.length := by
  unfold copyTo at h
  by_cases hroom : off + src.length ≤ buff.length
  · rw [if_pos hroom] at h
    rw [← Except.ok.inj h]
    simp only [List.length_append, List.length_take, List.length_drop]
    omega
  · rw [if_neg hroom] at h
    cases h

theorem length_setAt {α : Type} {xs ys : List α} {i : ℕ} {x : α} (h : setAt xs i x = .ok ys) :
    ys.length = xs.length := by
  unfold setAt at h
  by_cases hi : i < xs.length
  · rw [if_pos hi] at h
    rw [← Except.ok.inj h, List.length_set]
  · rw [if_neg hi] at h
    cases h

theorem length_collect {length : ℕ} {msg : String} {rem rem' : List ℤ} {i : ℕ} {out : List ℕ}
    (h : collect length msg rem i out = .ok rem') : rem'.length = rem.length := by
  obtain ⟨bn, -, h⟩ := Result.of_bind_ok h
  cases bn with
  | none => cases h
  | some x => exact length_setAt h

theorem length_qatSlice {length : ℕ} {base exponent modulus rem rem' : List ℤ} {s : Slice}
    (h : en.qatSlice length base exponent modulus rem s = .ok rem') :
    rem'.length = rem.length := by
  obtain ⟨outs, -, h⟩ := Result.of_bind_ok h
  rw [if_neg (fun hlong => by rw [if_pos hlong] at h; cases h)] at h
  exact Vec.foldlM_ok_inv (I := fun r => r.length = rem.length)
    (fun x _ s s' hs hx => (length_collect hx).trans hs) rfl h

/-- The device returns as many elements as its counter can hold of the bases. -/
theorem length_qatModExp {base exp mod res : List ℤ} (h : en.qatModExp base exp mod = .ok res) :
    res.length = base.length % 2 ^ 32 := by
  obtain ⟨front, -, h⟩ := Result.of_bind_ok h
  rw [if_neg (by decide)] at h
  obtain ⟨_, -, h⟩ := Result.of_bind_ok h
  refine Vec.foldlM_ok_inv (I := fun r => r.length = base.length % 2 ^ 32)
    (fun x _ s s' hs hx => (length_qatSlice hx).trans hs) ?_ h
  rw [List.length_replicate]

theorem length_ippModExp {mb : Bool} {base exp mod res : List ℤ}
    (h : en.ippModExp mb base exp mod = .ok res) : res.length = base.length := by
  unfold ippModExp at h
  by_cases hone : base.length = 1
  · rw [if_pos hone] at h
    obtain ⟨b, -, h⟩ := Result.of_bind_ok h
    obtain ⟨e, -, h⟩ := Result.of_bind_ok h
    obtain ⟨m, -, h⟩ := Result.of_bind_ok h
    obtain ⟨r, -, h⟩ := Result.of_bind_ok h
    rw [← Except.ok.inj h, hone]
    rfl
  · rw [if_neg hone] at h
    cases mb with
    | true =>
        refine Vec.foldlM_ok_inv (I := fun r : List ℤ => r.length = base.length)
          (fun c _ s s' hs hc => ?_) (List.length_replicate ..) (of_shared h)
        obtain ⟨b, -, hc⟩ := Result.of_bind_ok hc
        obtain ⟨e, -, hc⟩ := Result.of_bind_ok hc
        obtain ⟨m, -, hc⟩ := Result.of_bind_ok hc
        obtain ⟨tmp, -, hc⟩ := Result.of_bind_ok hc
        exact (length_copyTo hc).trans hs
    | false =>
        obtain ⟨_, -, h⟩ := Result.of_bind_ok h
        rw [Vec.length_of_mapM_ok (of_shared h), List.length_range]

/-- An element comes back for every base, unless the device is given more than it can count. -/
theorem length_modExp {mb : Bool} {q : ℕ} {base exp mod res : List ℤ} (hq : q < 2 ^ 32)
    (h : en.modExp mb q base exp mod = .ok res) : res.length = base.length := by
  unfold modExp at h
  by_cases hall : q = base.length
  · rw [if_pos hall] at h
    rw [length_qatModExp h, Nat.mod_eq_of_lt (by omega)]
  rw [if_neg hall] at h
  by_cases hzero : q = 0
  · rw [if_pos hzero] at h
    exact length_ippModExp h
  rw [if_neg hzero] at h
  obtain ⟨_, -, h⟩ := Result.of_bind_ok h
  obtain ⟨_, -, h⟩ := Result.of_bind_ok h
  obtain ⟨_, -, h⟩ := Result.of_bind_ok h
  obtain ⟨_, -, h⟩ := Result.of_bind_ok h
  obtain ⟨_, -, h⟩ := Result.of_bind_ok h
  obtain ⟨_, -, h⟩ := Result.of_bind_ok h
  obtain ⟨_, -, h⟩ := Result.of_bind_ok h
  obtain ⟨_, -, h⟩ := Result.of_bind_ok h
  obtain ⟨first, hfirst, h⟩ := Result.of_bind_ok h
  rw [length_copyTo h, length_copyTo hfirst, List.length_replicate]

/-! ### Reads -/

/-- Where `modExp` reads its vectors: the device in the first `q` elements, the chunks of the
multi-buffer function or the loop over single numbers in the others. -/
structure ReadsInside (q : ℕ) (base exp mod : List ℤ) : Prop where
  front : mod ≠ []
  device : ∀ s ∈ slicesMT q qatModexpBatchSize, ∀ i ∈ s.indices,
    ∀ xs ∈ [base, exp, mod], i < (xs.take q).length
  chunk : ∀ c ∈ chunks (base.length - q),
    ∀ xs ∈ [base, exp, mod], c.1 + c.2 ≤ (xs.drop q).length
  single : ∀ i < base.length - q, ∀ xs ∈ [base, exp, mod], i < (xs.drop q).length

/-- Three vectors of one length are read inside. -/
theorem readsInside_of_length {q n : ℕ} {base exp mod : List ℤ} (hn : 0 < n) (hq : q ≤ n)
    (hcount : q + qatModexpBatchSize ≤ 2 ^ 32) (hb : base.length = n) (he : exp.length = n)
    (hm : mod.length = n) : ReadsInside q base exp mod := by
  have hlen : ∀ xs ∈ [base, exp, mod], xs.length = n := by
    intro xs hxs
    simp only [List.mem_cons, List.not_mem_nil, or_false] at hxs
    rcases hxs with rfl | rfl | rfl
    · exact hb
    · exact he
    · exact hm
  refine ⟨List.ne_nil_of_length_pos (by omega), fun s hs i hi xs hxs => ?_,
    fun c hc xs hxs => ?_, fun i hi xs hxs => ?_⟩
  · have hmem : i ∈ worked (slicesMT q qatModexpBatchSize) :=
      List.mem_flatten.mpr ⟨_, List.mem_map_of_mem hs, hi⟩
    rcases Nat.eq_zero_or_pos q with rfl | hpos
    · have hnone : slicesMT 0 qatModexpBatchSize = [] := by decide
      rw [hnone] at hs
      cases hs
    · rw [worked_slicesMT hcount hpos (by decide)] at hmem
      rw [List.length_take_of_le ((hlen xs hxs).symm ▸ hq)]
      exact List.mem_range.mp hmem
  · rw [chunks_eq] at hc
    obtain ⟨i, hi, rfl⟩ := List.mem_map.mp hc
    have hi' := List.mem_range.mp hi
    rw [List.length_drop, hlen xs hxs]
    rw [hb] at hi' ⊢
    show i * 8 + min 8 (n - q - i * 8) ≤ n - q
    omega
  · rw [List.length_drop, hlen xs hxs]
    omega

end Engines

namespace PublicKey

/-! ### What an obfuscator is made of -/

section
variable {ipp : Ipp} {me : ModExp} {pk : PublicKey}

/-- The three vectors for `sz` obfuscators from the values `r`. -/
def fixedBases (pk : PublicKey) (r : List ℤ) (sz : ℕ) : List ℤ :=
  if pk.djnEnabled then List.replicate sz pk.hs else r

def fixedExps (pk : PublicKey) (r : List ℤ) (sz : ℕ) : List ℤ :=
  if pk.djnEnabled then r else List.replicate sz pk.n

def fixedMods (pk : PublicKey) (sz : ℕ) : List ℤ := List.replicate sz pk.nsquare

/-- The ciphertexts before they are obfuscated. -/
def clear (ipp : Ipp) (pk : PublicKey) (pt : List ℤ) : List ℤ :=
  pt.map fun m => mod ipp (add32 ipp (mul ipp pk.n m) 1) pk.nsquare

/-- In test mode the obfuscators are made from the values the key holds, all of them. -/
theorem applyObfuscator_fixed (htest : pk.testv = true) (ct : List ℤ) (draws : Draws)
    (hlen : ∀ os, me.vec (fixedBases pk pk.r ct.length) (fixedExps pk pk.r ct.length)
      (fixedMods pk ct.length) = .ok os → os.length = ct.length) :
    applyObfuscator ipp me pk ct draws
      = (me.vec (fixedBases pk pk.r ct.length) (fixedExps pk pk.r ct.length)
          (fixedMods pk ct.length) >>= fun os =>
            .ok (List.zipWith (modMul ipp pk.nsquare) ct os, draws)) := by
  have hrun : applyObfuscator ipp me pk ct draws
      = (me.vec (fixedBases pk pk.r ct.length) (fixedExps pk pk.r ct.length)
          (fixedMods pk ct.length) >>= fun os => ((List.range ct.length).mapM fun i => do
            let c ← elemAt ct i
            let o ← elemAt os i
            pure (modMul ipp pk.nsquare c o) : Result (List ℤ)) >>= fun cs => .ok (cs, draws)) := by
    unfold applyObfuscator getDJNObfuscator getNormalObfuscator fixedBases fixedExps fixedMods
    cases pk.djnEnabled with
    | true =>
        rw [htest]
        simp only [if_true]
        show ((liftM (me.vec _ _ _) : Rand (List ℤ)) >>= _) draws = _
        cases me.vec (List.replicate ct.length pk.hs) pk.r (List.replicate ct.length pk.nsquare)
        · rfl
        · simp only [Rand.liftM_ok, pure_bind, Result.bind_ok]
          rfl
    | false =>
        rw [htest]
        simp only [if_true, Bool.false_eq_true, if_false]
        show ((liftM (me.vec _ _ _) : Rand (List ℤ)) >>= _) draws = _
        cases me.vec pk.r (List.replicate ct.length pk.n) (List.replicate ct.length pk.nsquare)
        · rfl
        · simp only [Rand.liftM_ok, pure_bind, Result.bind_ok]
          rfl
  rw [hrun]
  cases hvec : me.vec (fixedBases pk pk.r ct.length) (fixedExps pk pk.r ct.length)
      (fixedMods pk ct.length) with
  | error e => rfl
  | ok os =>
      rw [Result.bind_ok, Result.bind_ok,
        mapM_elemAt₂ (modMul ipp pk.nsquare) rfl (hlen os hvec), Result.bind_ok]

theorem length_clear (pt : List ℤ) : (clear ipp pk pt).length = pt.length := List.length_map _

theorem encrypt_fixed (hinit : pk.isInitialized = true) (htest : pk.testv = true) {pt : List ℤ}
    (hpt : pt ≠ []) (draws : Draws)
    (hlen : ∀ os, me.vec (fixedBases pk pk.r pt.length) (fixedExps pk pk.r pt.length)
      (fixedMods pk pt.length) = .ok os → os.length = pt.length) :
    encrypt ipp me pk (BaseText.ofVec pt) true draws
      = (me.vec (fixedBases pk pk.r pt.length) (fixedExps pk pk.r pt.length)
          (fixedMods pk pt.length) >>= fun os => .ok (CipherText.ofVec pk
            (List.zipWith (modMul ipp pk.nsquare) (clear ipp pk pt) os), draws)) := by
  have hpos : 0 < pt.length := List.length_pos_iff.mpr hpt
  have happly := @applyObfuscator_fixed ipp me pk htest (clear ipp pk pt) draws
  rw [length_clear] at happly
  have hrun : encrypt ipp me pk (BaseText.ofVec pt) true draws
      = (applyObfuscator ipp me pk (clear ipp pk pt) draws >>= fun r =>
          .ok (CipherText.ofVec pk r.1, r.2)) := by
    have hsize : (BaseText.ofVec pt).getSize = pt.length := rfl
    unfold encrypt rawEncrypt
    simp only [hinit, hsize, hpos, decide_true, errorCheck_true, Rand.liftM_ok, pure_bind, if_true]
    rfl
  rw [hrun, happly hlen]
  cases me.vec (fixedBases pk pk.r pt.length) (fixedExps pk pk.r pt.length)
      (fixedMods pk pt.length) <;> rfl

/-- What `encrypt` asks before it does anything. -/
theorem encrypt_throws (hbad : pk.isInitialized = false ∨ pt = []) (makeSecure : Bool)
    (draws : Draws) : Throws (encrypt ipp me pk (BaseText.ofVec pt) makeSecure draws) := by
  unfold encrypt
  cases hinit : pk.isInitialized with
  | false => exact ⟨_, rfl⟩
  | true =>
      rcases hbad with hfalse | rfl
      · rw [hfalse] at hinit
        cases hinit
      · exact ⟨_, rfl⟩

/-- Out of test mode the values the key holds are not read. -/
theorem rawEncrypt_free (htest : pk.testv = false) (x : List ℤ) (pt : List ℤ) :
    rawEncrypt ipp me { pk with r := x } pt true = rawEncrypt ipp me pk pt true := by
  unfold rawEncrypt applyObfuscator getDJNObfuscator getNormalObfuscator
  simp only [htest, Bool.false_eq_true, if_false]

end

/-! ### Histories -/

/-- A key, and the values of the latest `setRandom` since it was created. -/
structure History where
  key : PublicKey
  recent : Option (List ℤ)

inductive Call where
  | create (n bits : ℤ) (djn : Bool) (draws : Draws)
  | createDJN (n bits hs randbits : ℤ)
  | setRandom (r : List ℤ)
  | setDJN (hs randbit : ℤ)
  | encrypt (pt : List ℤ) (makeSecure : Bool) (draws : Draws)

/-- A call of `create` that throws counts as one; one that never ends has no next state. -/
def step (ipp : Ipp) (me : ModExp) (s : History) : Call → Option History
  | .create n bits djn draws =>
      match createInto ipp me s.key n bits djn draws with
      | (.ok _, pk) => some ⟨pk, none⟩
      | (.error (.runtime _), pk) => some ⟨pk, none⟩
      | (.error _, _) => none
  | .createDJN n bits hs randbits =>
      match createDJN ipp me s.key n bits hs randbits [] with
      | .ok (pk, _) => some ⟨pk, none⟩
      | .error _ => none
  | .setRandom r => some ⟨s.key.setRandom r, some r⟩
  | .setDJN hs randbit => some { s with key := s.key.setDJN hs randbit }
  | .encrypt _ _ _ => some s

/-- A new object holds no values, and is not in test mode once it is initialised. -/
def histories (ipp : Ipp) (me : ModExp) : TransitionSystem History Call where
  init s := s.recent = none ∧ s.key.r = [] ∧ (s.key.isInitialized = true → s.key.testv = false)
  step := step ipp me

/-- Values are given to a key that has none, a key in test mode is not re-created by a call
that throws, and in test mode as many plaintexts are encrypted as there are values. -/
def Careful (ipp : Ipp) (me : ModExp) (share : ℕ → ℕ) (s : History) : Call → Prop
  | .create n _ djn draws => s.key.isInitialized = true → s.key.testv = true → djn = true →
      ¬ GeneratorFails ipp n draws ∧ ¬ PowerFails ipp me n draws
  | .setRandom _ => s.key.r = []
  | .encrypt pt makeSecure _ => makeSecure = true → s.key.isInitialized = true →
      s.key.testv = true → pt ≠ [] → s.key.r.length = pt.length ∧
        share pt.length + Engines.qatModexpBatchSize ≤ 2 ^ 32
  | _ => True

/-- The key is in test mode when values were given since it was created, and they are all
that it holds. -/
structure Tracks (s : History) : Prop where
  fixed : ∀ r, s.recent = some r → s.key.testv = true ∧ s.key.r = r
  free : s.recent = none → s.key.isInitialized = true → s.key.testv = false

theorem tracks_of_free {pk : PublicKey} (h : pk.isInitialized = true → pk.testv = false) :
    Tracks ⟨pk, none⟩ := by
  refine ⟨fun r hr => ?_, fun _ => h⟩
  cases hr

/-- A call that returns ends test mode. -/
theorem testv_of_returns {ipp : Ipp} {me : ModExp} {pk : PublicKey} {n bits : ℤ} {djn : Bool}
    {draws rest : Draws} (hok : (createInto ipp me pk n bits djn draws).1 = .ok rest) :
    (createInto ipp me pk n bits djn draws).2.testv = false := by
  cases djn with
  | false => rfl
  | true =>
      unfold createInto at hok ⊢
      simp only [if_true] at hok ⊢
      cases hrun : enableDJN ipp me (refilled ipp pk n bits true) draws with
      | error e =>
          rw [hrun] at hok
          cases hok
      | ok r => rfl

theorem of_step_create {ipp : Ipp} {me : ModExp} {s s' : History} {n bits : ℤ} {djn : Bool}
    {draws : Draws} (hs : step ipp me s (.create n bits djn draws) = some s') :
    s' = ⟨(createInto ipp me s.key n bits djn draws).2, none⟩ ∧
      ((∃ rest, (createInto ipp me s.key n bits djn draws).1 = .ok rest) ∨
        Throws (createInto ipp me s.key n bits djn draws).1) := by
  simp only [step] at hs
  generalize createInto ipp me s.key n bits djn draws = out at hs ⊢
  match out with
  | (.ok rest, pk) =>
      cases hs
      exact ⟨rfl, .inl ⟨rest, rfl⟩⟩
  | (.error (.runtime msg), pk) =>
      cases hs
      exact ⟨rfl, .inr ⟨msg, rfl⟩⟩
  | (.error (.undefined _), _) => cases hs
  | (.error (.exit _), _) => cases hs
  | (.error .terminate, _) => cases hs
  | (.error .hang, _) => cases hs
  | (.error .exhausted, _) => cases hs

theorem Tracks.step {ipp : Ipp} (h : ipp.Lawful) {me : ModExp} {share : ℕ → ℕ} {s s' : History}
    {c : Call} (ht : Tracks s) (hok : Careful ipp me share s c)
    (hs : step ipp me s c = some s') : Tracks s' := by
  cases c with
  | create n bits djn draws =>
      obtain ⟨rfl, ⟨rest, hreturns⟩ | hthrows⟩ := of_step_create hs
      · exact tracks_of_free fun _ => testv_of_returns hreturns
      · cases djn with
        | false =>
            obtain ⟨msg, hmsg⟩ := hthrows
            cases hmsg
        | true =>
            refine tracks_of_free fun hinit => ?_
            rw [createInto_of_throws h hthrows] at hinit ⊢
            by_contra htest
            have htest' : s.key.testv = true := Bool.eq_true_of_not_eq_false htest
            have hnot := hok hinit htest' rfl
            exact ((create_throws_iff h _ _ _ _).mp hthrows).elim hnot.1 hnot.2
  | createDJN n bits hs' randbits =>
      cases hs
      exact tracks_of_free fun _ => rfl
  | setRandom r =>
      cases hs
      refine ⟨fun r' hr' => ?_, fun hnone => ?_⟩
      · cases hr'
        refine ⟨rfl, ?_⟩
        show s.key.r ++ r = r
        rw [show s.key.r = [] from hok, List.nil_append]
      · cases hnone
  | setDJN hs' randbit =>
      cases hs
      unfold setDJN
      by_cases hdjn : s.key.djnEnabled = true
      · rw [if_pos hdjn]
        exact ht
      · rw [if_neg hdjn]
        exact ⟨ht.fixed, ht.free⟩
  | encrypt pt makeSecure draws =>
      cases hs
      exact ht

/-! ### What an encryption uses -/

section
variable (en : Engines) (mb : Bool) (share : ℕ → ℕ)

/-- The obfuscators of the plaintexts are made from the values `r`, one for each, and `modExp`
is called with three vectors of as many elements, which it reads inside. -/
structure Uses (pk : PublicKey) (r pt : List ℤ) (draws : Draws) : Prop where
  bases : (fixedBases pk r pt.length).length = pt.length
  exps : (fixedExps pk r pt.length).length = pt.length
  reads : Engines.ReadsInside (share pt.length) (fixedBases pk r pt.length)
    (fixedExps pk r pt.length) (fixedMods pk pt.length)
  results : ∀ os, en.modExp mb (share pt.length) (fixedBases pk r pt.length)
    (fixedExps pk r pt.length) (fixedMods pk pt.length) = .ok os → os.length = pt.length
  run : encrypt en.ipp (en.toModExp mb share) pk (BaseText.ofVec pt) true draws
    = (en.modExp mb (share pt.length) (fixedBases pk r pt.length) (fixedExps pk r pt.length)
        (fixedMods pk pt.length) >>= fun os => .ok (CipherText.ofVec pk
          (List.zipWith (modMul en.ipp pk.nsquare) (clear en.ipp pk pt) os), draws))

/-- What an encryption should do: throw, or use the latest values where some were given since
the key was created, and none that the key holds where none were. -/
def FixedRandom (s : History) (pt : List ℤ) (draws : Draws) : Prop :=
  Throws (encrypt en.ipp (en.toModExp mb share) s.key (BaseText.ofVec pt) true draws) ∨
  match s.recent with
  | some r => Uses en mb share s.key r pt draws
  | none => ∀ x, rawEncrypt en.ipp (en.toModExp mb share) { s.key with r := x } pt true
      = rawEncrypt en.ipp (en.toModExp mb share) s.key pt true

end

section
variable {en : Engines} {mb : Bool} {share : ℕ → ℕ}

theorem uses_of_length {pk : PublicKey} (hinit : pk.isInitialized = true)
    (htest : pk.testv = true) {pt : List ℤ} (hpt : pt ≠ []) (hr : pk.r.length = pt.length)
    (hshare : share pt.length ≤ pt.length)
    (hcount : share pt.length + Engines.qatModexpBatchSize ≤ 2 ^ 32) (draws : Draws) :
    Uses en mb share pk pk.r pt draws := by
  have hbases : (fixedBases pk pk.r pt.length).length = pt.length := by
    unfold fixedBases
    split_ifs
    · exact List.length_replicate
    · exact hr
  have hexps : (fixedExps pk pk.r pt.length).length = pt.length := by
    unfold fixedExps
    split_ifs
    · exact hr
    · exact List.length_replicate
  have hdevice : share pt.length < 2 ^ 32 := by
    have : 0 < Engines.qatModexpBatchSize := by decide
    omega
  have hresults : ∀ os, en.modExp mb (share pt.length) (fixedBases pk pk.r pt.length)
      (fixedExps pk pk.r pt.length) (fixedMods pk pt.length) = .ok os → os.length = pt.length := by
    intro os hos
    rw [Engines.length_modExp hdevice hos, hbases]
  have hvec : (en.toModExp mb share).vec (fixedBases pk pk.r pt.length)
      (fixedExps pk pk.r pt.length) (fixedMods pk pt.length)
      = en.modExp mb (share pt.length) (fixedBases pk pk.r pt.length)
        (fixedExps pk pk.r pt.length) (fixedMods pk pt.length) := by
    show en.modExp mb (share (fixedBases pk pk.r pt.length).length) _ _ _ = _
    rw [hbases]
  refine ⟨hbases, hexps, Engines.readsInside_of_length (List.length_pos_iff.mpr hpt) hshare hcount
    hbases hexps List.length_replicate, hresults, ?_⟩
  rw [encrypt_fixed hinit htest hpt draws (by rwa [hvec]), hvec]

/-- **In a history that gives values to a key once, does not re-create it in test mode by a call
that throws, and encrypts as many plaintexts as it gave values, every encryption throws or uses
the latest values, and out of test mode none.** -/
theorem fixed_random (h : en.ipp.Lawful) (hshare : ∀ n, share n ≤ n) {s : History}
    (hs : (histories en.ipp (en.toModExp mb share)).ReachableIf
      (Careful en.ipp (en.toModExp mb share) share) s) {pt : List ℤ} {draws : Draws}
    (hok : Careful en.ipp (en.toModExp mb share) share s (.encrypt pt true draws)) :
    FixedRandom en mb share s pt draws := by
  have htracks : Tracks s := by
    refine hs.invariant (I := Tracks) ?_ fun _ _ _ hI hok hstep => hI.step h hok hstep
    intro s hinit
    obtain ⟨hnone, -, hfree⟩ := hinit
    refine ⟨fun r hr => ?_, fun _ => hfree⟩
    rw [hnone] at hr
    cases hr
  by_cases hready : s.key.isInitialized = true ∧ pt ≠ []
  · obtain ⟨hinit, hpt⟩ := hready
    right
    cases hrecent : s.recent with
    | none => exact fun x => rawEncrypt_free (htracks.free hrecent hinit) x pt
    | some r =>
        obtain ⟨htest, hr⟩ := htracks.fixed r hrecent
        obtain ⟨hlen, hcount⟩ := hok rfl hinit htest hpt
        rw [← hr]
        exact uses_of_length hinit htest hpt hlen (hshare _) hcount draws
  · left
    apply encrypt_throws
    by_cases hinit : s.key.isInitialized = true
    · exact .inr (by_contra fun hpt => hready ⟨hinit, hpt⟩)
    · exact .inl (Bool.eq_false_of_not_eq_true hinit)

end

/-- Two values for two plaintexts. -/
theorem fixed_random_two :
    FixedRandom Engines.reference true (fun _ => 0) ⟨djnFifteen.setRandom [2, 3], some [2, 3]⟩
      [1, 2] [] := by
  have hinit : (histories Engines.reference.ipp (Engines.reference.toModExp true fun _ => 0)).init
      ⟨djnFifteen, none⟩ := ⟨rfl, rfl, fun _ => rfl⟩
  refine fixed_random Engines.reference_lawful.ipp (fun _ => Nat.zero_le _)
    (.step (.init hinit) (a := .setRandom [2, 3]) rfl rfl) fun _ _ _ _ => ?_
  exact ⟨rfl, by decide⟩

/-- Values that were given before, and values of another number than the plaintexts. -/
theorem not_fixed_random :
    (∃ s, (histories Ipp.reference (Engines.reference.toModExp true fun _ => 0)).run
        ⟨djnFifteen, none⟩ [.setRandom [2, 3], .setRandom [1, 0]] = some s ∧
      ¬ FixedRandom Engines.reference true (fun _ => 0) s [1, 2] []) ∧
    ∃ s, (histories Ipp.reference (Engines.reference.toModExp true fun _ => 0)).run
        ⟨ofModulus 15, none⟩ [.setRandom [2, 4, 7]] = some s ∧
      ¬ FixedRandom Engines.reference true (fun _ => 0) s [1, 2] [] := by
  refine ⟨⟨_, rfl, fun hfixed => ?_⟩, ⟨_, rfl, fun hfixed => ?_⟩⟩
  · have hrun : (encrypt Ipp.reference (Engines.reference.toModExp true fun _ => 0)
        ((djnFifteen.setRandom [2, 3]).setRandom [1, 0]) (BaseText.ofVec [1, 2]) true []).map
          (fun r => r.1.texts) = .ok [16, 94] := by decide +kernel
    rcases hfixed with ⟨msg, hmsg⟩ | huses
    · cases hrun.symm.trans (congrArg (Except.map fun r => r.1.texts) hmsg)
    · have hcall := congrArg (Except.map fun r => r.1.texts) huses.run
      have hlatest := hrun.symm.trans hcall
      revert hlatest
      decide +kernel
  · have hrun : (encrypt Ipp.reference (Engines.reference.toModExp true fun _ => 0)
        ((ofModulus 15).setRandom [2, 4, 7]) (BaseText.ofVec [1, 2]) true []).map
          (fun r => r.1.texts) = .error (.undefined "read past the end") := by decide +kernel
    rcases hfixed with ⟨msg, hmsg⟩ | huses
    · cases hrun.symm.trans (congrArg (Except.map fun r => r.1.texts) hmsg)
    · exact absurd huses.bases (by decide)

end PublicKey

end Ipcl
