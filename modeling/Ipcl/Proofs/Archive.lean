/-
What comes back out of an archive.

A number, a text and a public key come back as they were saved.  The public key is
rebuilt by `create` from the arguments the archive holds, so what has to be known of
the saved key is that its other fields are the ones `create` makes; that holds of
every key the class can build.

Reading trusts the stream in two places.  The words of a number are counted in an `int`
and handed to `create`, which needs one; and a ciphertext is read into the object behind
a pointer that is empty in a new ciphertext.
-/
import Ipcl.Proofs.Serialize

namespace Ipcl

open BigNumber Supply

/-! ### Numbers -/

/-- The list is read as the number it denotes: counting the words in an `int` leaves at least
one, and only zeros behind. -/
structure Whole (e : List ℕ × Bool) : Prop where
  hasWords : HasWords e
  rest_zero : ∀ w ∈ e.1.drop (toInt e.1.length).toNat, w = 0

/-- Lists an `int` can count are read as they are, if they have a word. -/
theorem whole_iff_of_lt {e : List ℕ × Bool} (hlt : e.1.length < 2 ^ 31) :
    Whole e ↔ e.1 ≠ [] := by
  have hcount : (toInt e.1.length).toNat = e.1.length := by
    rw [toInt_of_lt hlt, Int.toNat_natCast]
  constructor
  · intro he hnil
    have hwords := he.hasWords
    rw [HasWords, hnil, toInt_of_lt (by simp)] at hwords
    exact absurd hwords (by simp)
  · intro hne
    refine ⟨hasWords_of_lt hne hlt, fun w hw => ?_⟩
    rw [hcount, List.drop_length] at hw
    cases hw

/-- The words that are not read are zero when the number is the same without them. -/
theorem ofWords_take_eq_iff (ws : List ℕ) (k : ℕ) :
    ofWords (ws.take k) = ofWords ws ↔ ∀ w ∈ ws.drop k, w = 0 := by
  have hsplit := ofWords_take_add_drop ws k
  rw [← Digits.ofDigits_eq_zero_iff (by norm_num : 0 < 2 ^ 32)]
  show _ ↔ ofWords _ = 0
  have hpos : 0 < (2 ^ 32) ^ (ws.take k).length := by positivity
  constructor
  · intro heq
    exact (Nat.mul_eq_zero.mp (by omega)).resolve_left hpos.ne'
  · intro hzero
    rw [hzero, Nat.mul_zero, Nat.add_zero] at hsplit
    exact hsplit.symm

theorem denoted_eq_iff (ws ws' : List ℕ) (neg : Bool) :
    denoted (ws, neg) = denoted (ws', neg) ↔ ofWords ws = ofWords ws' := by
  cases neg <;> simp [denoted]

theorem numberRead_eq_denoted_iff (e : List ℕ × Bool) :
    numberRead e = denoted e ↔ ∀ w ∈ e.1.drop (toInt e.1.length).toNat, w = 0 := by
  obtain ⟨ws, neg⟩ := e
  rw [numberRead, counted, denoted_eq_iff, ofWords_take_eq_iff]

theorem Whole.numberRead_eq {e : List ℕ × Bool} (he : Whole e) :
    numberRead e = denoted e :=
  (numberRead_eq_denoted_iff e).mpr he.rest_zero

theorem whole_saved {x : ℤ} (hx : Storable x) : Whole (saved x) :=
  (whole_iff_of_lt (length_saved_lt hx)).mpr (saved_ne_nil x)

/-! ### Texts -/

/-- A text as an archive holds it. -/
def textItems (size : ℕ) (es : List (List ℕ × Bool)) : Archive :=
  .size size :: .size es.length :: es.flatMap numberItems

theorem save_text (t : BaseText) : t.save = textItems t.size (t.texts.map saved) := by
  rw [BaseText.save, textItems, List.length_map, List.flatMap_map]
  rfl

namespace BaseText

/-- The elements read so far are in their places. -/
theorem loadElements_eq {size : ℕ} {ar : Archive} : ∀ {es : List (List ℕ × Bool)}
    {d r : List ℤ}, r.length = es.length → (∀ e ∈ es, HasWords e) →
    loadElements es.length d.length (es.flatMap numberItems ++ ar) ⟨d ++ r, size⟩
      = (.ok ((), ar), ⟨d ++ es.map numberRead, size⟩) := by
  intro es
  induction es with
  | nil =>
      intro d r hlen _
      rw [List.length_eq_zero_iff.mp hlen]
      rfl
  | cons e es ih =>
      intro d r hlen hes
      obtain ⟨x, r, rfl⟩ := List.exists_cons_of_length_eq_add_one hlen
      have hload := load_numberItems (hes e (by simp)) (es.flatMap numberItems ++ ar)
        (⟨d ++ x :: r, size⟩ : BaseText)
      rw [List.length_cons, List.flatMap_cons, List.append_assoc, loadElements,
        Load.bind_ok hload]
      show loadElements es.length (d.length + 1) (es.flatMap numberItems ++ ar)
        ⟨(d ++ x :: r).set d.length (numberRead e), size⟩ = _
      have hset : (d ++ x :: r).set d.length (numberRead e)
          = (d ++ [numberRead e]) ++ r := by simp
      have hnext := ih (d := d ++ [numberRead e]) (r := r) (by simpa using hlen)
        fun e' he' => hes e' (by simp [he'])
      rw [List.length_append, List.length_singleton] at hnext
      rw [hset, hnext]
      simp

/-- An element of no words stops the reading. -/
theorem loadElements_none {size : ℕ} {ar : Archive} : ∀ {es : List (List ℕ × Bool)}
    {texts : List ℤ} {i : ℕ}, (∃ e ∈ es, ¬ HasWords e) →
    (loadElements es.length i (es.flatMap numberItems ++ ar) ⟨texts, size⟩).1
      = .error (.undefined "number of no words") := by
  intro es
  induction es with
  | nil =>
      intro texts i hex
      obtain ⟨e, he, -⟩ := hex
      cases he
  | cons e es ih =>
      intro texts i hex
      rw [List.length_cons, List.flatMap_cons, List.append_assoc, loadElements]
      by_cases he : HasWords e
      · rw [Load.bind_ok (load_numberItems he _ _)]
        obtain ⟨e', hmem, he'⟩ := hex
        rcases List.mem_cons.mp hmem with rfl | hmem
        · exact absurd he he'
        · exact ih ⟨e', hmem, he'⟩
      · rw [Load.bind_error (load_numberItems_none he _ _)]

theorem length_resize (xs : List ℤ) (n : ℕ) : (resize xs n).length = n := by
  rw [resize, List.length_append, List.length_take, List.length_replicate]
  omega

theorem load_textItems (size : ℕ) {es : List (List ℕ × Bool)} (hes : ∀ e ∈ es, HasWords e)
    (ar : Archive) (target : BaseText) :
    load (textItems size es ++ ar) target
      = (.ok ((), ar), ⟨es.map numberRead, size⟩) :=
  loadElements_eq (d := []) (length_resize target.texts es.length) hes

theorem load_textItems_none (size : ℕ) {es : List (List ℕ × Bool)} (hes : ∃ e ∈ es, ¬ HasWords e)
    (ar : Archive) (target : BaseText) :
    (load (textItems size es ++ ar) target).1 = .error (.undefined "number of no words") :=
  loadElements_none hes

/-- A saved text is loaded as it was, whatever was in the object. -/
theorem load_save {t : BaseText} (ht : ∀ x ∈ t.texts, Storable x) (ar : Archive)
    (target : BaseText) : load (t.save ++ ar) target = (.ok ((), ar), t) := by
  rw [save_text, load_textItems]
  · have hback : (t.texts.map saved).map numberRead = t.texts := by
      rw [List.map_map]
      refine (List.map_congr_left fun x hx => ?_).trans t.texts.map_id
      exact (whole_saved (ht x hx)).numberRead_eq.trans (denoted_saved x)
    rw [hback]
  · intro e he
    obtain ⟨x, hx, rfl⟩ := List.mem_map.mp he
    exact hasWords_saved (ht x hx)

end BaseText

/-! ### What a stream can do -/

/-- The object is what the stream says, or an exception is thrown. -/
def Sound {σ : Type} (outcome : Result Unit × σ) (meant : σ) : Prop :=
  outcome = (.ok (), meant) ∨ ∃ msg, outcome.1 = .error (.runtime msg)

/-- Reading into an existing number. -/
def loadNumber : Load ℤ Unit := do
  let x ← BigNumber.load
  Load.assign fun _ => x

theorem load_of_save_number {x : ℤ} (hx : Storable x) (target : ℤ) :
    Load.exec loadNumber (BigNumber.save x) target = (.ok (), x) := by
  have hload := load_save_number hx [] target
  rw [List.append_nil] at hload
  rw [Load.exec, loadNumber, Load.bind_ok hload]
  rfl

theorem load_of_save_text {t : BaseText} (ht : ∀ x ∈ t.texts, Storable x) (target : BaseText) :
    Load.exec BaseText.load t.save target = (.ok (), t) := by
  have hload := BaseText.load_save ht [] target
  rw [List.append_nil] at hload
  rw [Load.exec, hload]
  rfl

section
variable {σ : Type} {meant s : σ}

/-- A load that ends without an exception is sound when it leaves what the stream says. -/
theorem sound_ok_iff : Sound (.ok (), s) meant ↔ s = meant := by
  constructor
  · rintro (hok | ⟨msg, hmsg⟩)
    · exact (Prod.mk.inj hok).2
    · cases hmsg
  · rintro rfl
    exact .inl rfl

/-- One in which `create` is given no words is not. -/
theorem not_sound_of_undefined {outcome : Result Unit × σ} {what : String}
    (h : outcome.1 = .error (.undefined what)) : ¬ Sound outcome meant := by
  rintro (hok | ⟨msg, hmsg⟩)
  · rw [hok] at h
    cases h
  · rw [h] at hmsg
    cases hmsg

end

theorem sound_number_iff (e : List ℕ × Bool) (target : ℤ) :
    Sound (Load.exec loadNumber (numberItems e) target) (denoted e) ↔ Whole e := by
  by_cases he : HasWords e
  · have hload := load_numberItems he [] target
    rw [List.append_nil] at hload
    have hexec : Load.exec loadNumber (numberItems e) target
        = (.ok (), numberRead e) := by
      rw [Load.exec, loadNumber, Load.bind_ok hload]
      rfl
    rw [hexec, sound_ok_iff, numberRead_eq_denoted_iff]
    exact ⟨fun hzero => ⟨he, hzero⟩, Whole.rest_zero⟩
  · have hload := load_numberItems_none he [] target
    rw [List.append_nil] at hload
    have hfst : (Load.exec loadNumber (numberItems e) target).1
        = .error (.undefined "number of no words") := by
      rw [Load.exec, loadNumber, Load.bind_error hload]
      rfl
    exact ⟨fun hsound => absurd hsound (not_sound_of_undefined hfst),
      fun hwhole => absurd hwhole.hasWords he⟩

theorem sound_text_iff (size : ℕ) (es : List (List ℕ × Bool)) (target : BaseText) :
    Sound (Load.exec BaseText.load (textItems size es) target) ⟨es.map denoted, size⟩
      ↔ ∀ e ∈ es, Whole e := by
  by_cases hes : ∀ e ∈ es, HasWords e
  · have hload := BaseText.load_textItems size hes [] target
    rw [List.append_nil] at hload
    have hexec : Load.exec BaseText.load (textItems size es) target
        = (.ok (), ⟨es.map numberRead, size⟩) := by
      rw [Load.exec, hload]
      rfl
    rw [hexec, sound_ok_iff]
    constructor
    · intro heq e he
      have hmap := List.map_inj_left.mp (congrArg BaseText.texts heq)
      exact ⟨hes e he, (numberRead_eq_denoted_iff e).mp (hmap e he)⟩
    · intro hwhole
      have hmap : es.map numberRead = es.map denoted :=
        List.map_congr_left fun e he => (hwhole e he).numberRead_eq
      rw [hmap]
  · obtain ⟨e, he⟩ := not_forall.mp hes
    obtain ⟨hmem, hnone⟩ := Classical.not_imp.mp he
    have hload := BaseText.load_textItems_none size ⟨e, hmem, hnone⟩ [] target
    rw [List.append_nil] at hload
    have hfst : (Load.exec BaseText.load (textItems size es) target).1
        = .error (.undefined "number of no words") := by
      rw [Load.exec, hload]
      rfl
    exact ⟨fun hsound => absurd hsound (not_sound_of_undefined hfst),
      fun hwhole => absurd (fun e he => (hwhole e he).hasWords) hes⟩

/-- Numbers and texts come back as they were saved, and whatever an archive of a number
or of a text holds is loaded as what it denotes or refused. -/
structure ArchiveLaw (size : ℕ) (es : List (List ℕ × Bool)) : Prop where
  number : ∀ x, Storable x → ∀ target,
    Load.exec loadNumber (BigNumber.save x) target = (.ok (), x)
  text : ∀ t target : BaseText, (∀ x ∈ t.texts, Storable x) → t.size = t.texts.length →
    Load.exec BaseText.load t.save target = (.ok (), t)
  anyNumber : ∀ e ∈ es, ∀ target,
    Sound (Load.exec loadNumber (numberItems e) target) (denoted e)
  anyText : ∀ target,
    Sound (Load.exec BaseText.load (textItems size es) target) ⟨es.map denoted, size⟩

/-- **The law holds of the contents whose lists of words survive being counted in an `int`.**

Of the lists shorter than `2 ^ 31` these are the ones that are not empty. -/
theorem archive_law_iff (size : ℕ) (es : List (List ℕ × Bool)) :
    ArchiveLaw size es ↔ ∀ e ∈ es, Whole e := by
  constructor
  · intro h
    exact (sound_text_iff size es ⟨[], 0⟩).mp (h.anyText ⟨[], 0⟩)
  · intro hes
    exact ⟨fun _ hx => load_of_save_number hx, fun t target ht _ => load_of_save_text ht target,
      fun e he target => (sound_number_iff e target).mpr (hes e he),
      fun target => (sound_text_iff size es target).mpr hes⟩

/-- A text of one number of no words. -/
theorem not_archive_law_no_words : ¬ ArchiveLaw 1 [([], false)] := by
  intro h
  have hsound := (sound_number_iff ([], false) 0).mp (h.anyNumber ([], false) (by simp) 0)
  exact (whole_iff_of_lt (by simp)).mp hsound rfl

/-! ### Public keys -/

namespace PublicKey

variable {ipp : Ipp} {me : ModExp}

/-- The keys the class can build: by the constructor, by either overload of `create` on
any object, and by switching the DJN mode on. -/
inductive Built (ipp : Ipp) (me : ModExp) : PublicKey → Prop
  | new {n bits : ℤ} {djn : Bool} {draws rest : Draws} {pk : PublicKey}
      (h : PublicKey.new ipp me n bits djn draws = .ok (pk, rest)) : Built ipp me pk
  | create {old : PublicKey} {n bits : ℤ} {djn : Bool} {draws rest : Draws} {pk : PublicKey}
      (h : PublicKey.create ipp me old n bits djn draws = .ok (pk, rest)) : Built ipp me pk
  | createDJN {old : PublicKey} {n bits hs randbits : ℤ} {draws rest : Draws} {pk : PublicKey}
      (h : PublicKey.createDJN ipp me old n bits hs randbits draws = .ok (pk, rest)) :
      Built ipp me pk
  | enableDJN {old : PublicKey} (hold : Built ipp me old) {draws rest : Draws} {pk : PublicKey}
      (h : PublicKey.enableDJN ipp me old draws = .ok (pk, rest)) : Built ipp me pk
  | setDJN {old : PublicKey} (hold : Built ipp me old) (hs randbit : ℤ) :
      Built ipp me (old.setDJN hs randbit)

/-- The fields that `create` derives from the modulus and the size. -/
structure Derived (pk : PublicKey) : Prop where
  isInitialized : pk.isInitialized = true
  g : pk.g = pk.n + 1
  nsquare : pk.nsquare = pk.n * pk.n
  dwords : pk.dwords = (pk.bits * 2 + 63) >>> (6 : ℕ)
  testv : pk.testv = false

theorem enableDJN_shape (old : PublicKey) : Returns (fun _ => True) (enableDJN ipp me old)
    fun pk => ∃ hs, pk =
      { old with hs := hs, randbits := old.bits >>> (1 : ℕ), djnEnabled := true } := by
  unfold enableDJN
  refine (Returns.trivial _).bind fun draws _ => ?_
  refine (Returns.trivial _).bind fun rmod _ => ?_
  refine (Returns.trivial _).bind fun hs _ => ?_
  exact Returns.pure ⟨hs, rfl⟩

variable (h : ipp.Lawful)
include h

theorem new_derived (n bits : ℤ) (djn : Bool) :
    Returns (fun _ => True) (new ipp me n bits djn) Derived := by
  cases djn with
  | false => exact Returns.pure ⟨rfl, add32_eq h n 1, mul_eq h n n, rfl, rfl⟩
  | true =>
      refine (enableDJN_shape _).bind ?_
      rintro pk ⟨hs, rfl⟩
      exact Returns.pure ⟨rfl, add32_eq h n 1, mul_eq h n n, rfl, rfl⟩

theorem create_derived (old : PublicKey) (n bits : ℤ) (djn : Bool) :
    Returns (fun _ => True) (create ipp me old n bits djn) Derived := by
  cases djn with
  | false => exact Returns.pure ⟨rfl, add32_eq h n 1, mul_eq h n n, rfl, rfl⟩
  | true =>
      refine (enableDJN_shape _).bind ?_
      rintro pk ⟨hs, rfl⟩
      exact Returns.pure ⟨rfl, add32_eq h n 1, mul_eq h n n, rfl, rfl⟩

theorem createDJN_derived (old : PublicKey) (n bits hs randbits : ℤ) :
    Returns (fun _ => True) (createDJN ipp me old n bits hs randbits) Derived := by
  refine (create_derived h old n bits false).bind fun pk hpk => ?_
  exact Returns.pure ⟨hpk.isInitialized, hpk.g, hpk.nsquare, hpk.dwords, hpk.testv⟩

theorem Built.derived {pk : PublicKey} (hpk : Built ipp me pk) : Derived pk := by
  have hall : ∀ draws : Draws, ∀ d ∈ draws, (fun _ => True) d := fun _ _ _ => True.intro
  induction hpk with
  | new hnew => exact (new_derived h _ _ _ _ _ _ (hall _) hnew).1
  | create hcreate => exact (create_derived h _ _ _ _ _ _ _ (hall _) hcreate).1
  | createDJN hcreate => exact (createDJN_derived h _ _ _ _ _ _ _ _ (hall _) hcreate).1
  | enableDJN _ henable ih =>
      obtain ⟨hs, rfl⟩ := (enableDJN_shape _ _ _ _ (hall _) henable).1
      exact ⟨ih.isInitialized, ih.g, ih.nsquare, ih.dwords, ih.testv⟩
  | @setDJN old _ hs randbit ih =>
      unfold PublicKey.setDJN
      by_cases hdjn : old.djnEnabled = true
      · rw [if_pos hdjn]
        exact ih
      · rw [if_neg hdjn]
        exact ⟨ih.isInitialized, ih.g, ih.nsquare, ih.dwords, ih.testv⟩

omit h

/-- The key `load` makes of the archive of another. -/
def rebuilt (ipp : Ipp) (target pk : PublicKey) : PublicKey :=
  { target with
    n := pk.n
    g := add32 ipp pk.n 1
    nsquare := mul ipp pk.n pk.n
    bits := pk.bits
    dwords := (pk.bits * 2 + 63) >>> (6 : ℕ)
    djnEnabled := pk.djnEnabled
    hs := if pk.djnEnabled then pk.hs else 0
    randbits := if pk.djnEnabled then pk.randbits else 0
    testv := false
    isInitialized := true }

theorem load_save (ipp : Ipp) (me : ModExp) {pk : PublicKey} (target : PublicKey)
    (hbits : 32 ≤ pk.bits) (hn : Storable pk.n) (hhs : Storable pk.hs) (ar : Archive) :
    load ipp me (pk.save ++ ar) target = (.ok ((), ar), rebuilt ipp target pk) := by
  have hlen : 1 ≤ pk.bits.tdiv 32 := by
    rw [Int.tdiv_eq_ediv_of_nonneg (by omega)]
    omega
  have hzero : ∀ n, 1 ≤ n → zeroWords n = .ok (List.replicate n.toNat 0) := by
    intro n hn
    exact if_neg (by omega)
  have hcreate : ∀ ws n, 1 ≤ n → ∃ v, BigNumber.create ws n false = .ok v := by
    intro ws n hn
    exact ⟨_, if_neg (by omega)⟩
  obtain ⟨v, hv⟩ := hcreate (List.replicate (pk.bits.tdiv 32).toNat 0) _ hlen
  obtain ⟨w, hw⟩ := hcreate (List.replicate (pk.bits.tdiv 32 * 2).toNat 0)
    (pk.bits.tdiv 32 * 2) (by omega)
  have hbit : (Load.int : Load PublicKey ℤ) (pk.save ++ ar) target
      = (.ok (pk.bits, .bool pk.djnEnabled :: .int pk.randbits ::
          (BigNumber.save pk.n ++ BigNumber.save pk.hs) ++ ar), target) := rfl
  have hdjn : (Load.bool : Load PublicKey Bool) (.bool pk.djnEnabled :: .int pk.randbits ::
          (BigNumber.save pk.n ++ BigNumber.save pk.hs) ++ ar) target
      = (.ok (pk.djnEnabled, .int pk.randbits ::
          (BigNumber.save pk.n ++ BigNumber.save pk.hs) ++ ar), target) := rfl
  have hrand : (Load.int : Load PublicKey ℤ) (.int pk.randbits ::
          (BigNumber.save pk.n ++ BigNumber.save pk.hs) ++ ar) target
      = (.ok (pk.randbits, BigNumber.save pk.n ++ (BigNumber.save pk.hs ++ ar)), target) := by
    rw [← List.append_assoc]
    rfl
  rw [load, Load.bind_ok hbit, Load.bind_ok hdjn, Load.bind_ok hrand]
  rw [hzero _ hlen, Load.ofResult_ok_bind, hzero _ (by omega : 1 ≤ pk.bits.tdiv 32 * 2),
    Load.ofResult_ok_bind, hv, Load.ofResult_ok_bind, hw, Load.ofResult_ok_bind,
    Load.bind_ok (load_save_number hn _ _), Load.bind_ok (load_save_number hhs _ _)]
  unfold rebuilt Load.modify
  cases pk.djnEnabled <;> rfl

/-- The first key has everything the second one has, except what its mode does not use. -/
structure Restored (pk' pk : PublicKey) : Prop where
  isInitialized : pk'.isInitialized = pk.isInitialized
  n : pk'.n = pk.n
  g : pk'.g = pk.n + 1 ∧ pk'.g = pk.g
  nsquare : pk'.nsquare = pk.n ^ 2 ∧ pk'.nsquare = pk.nsquare
  bits : pk'.bits = pk.bits
  dwords : pk'.dwords = pk.dwords
  djnEnabled : pk'.djnEnabled = pk.djnEnabled
  hs : pk.djnEnabled = true → pk'.hs = pk.hs
  randbits : pk.djnEnabled = true → pk'.randbits = pk.randbits
  testv : pk'.testv = false ∧ pk.testv = false

theorem restored_rebuilt (h : ipp.Lawful) {pk : PublicKey} (hpk : Derived pk)
    (target : PublicKey) : Restored (rebuilt ipp target pk) pk where
  isInitialized := hpk.isInitialized.symm
  n := rfl
  g := ⟨add32_eq h pk.n 1, (add32_eq h pk.n 1).trans hpk.g.symm⟩
  nsquare := ⟨(mul_eq h pk.n pk.n).trans (sq pk.n).symm,
    (mul_eq h pk.n pk.n).trans hpk.nsquare.symm⟩
  bits := rfl
  dwords := hpk.dwords.symm
  djnEnabled := rfl
  hs hdjn := if_pos hdjn
  randbits hdjn := if_pos hdjn
  testv := ⟨rfl, hpk.testv⟩

/-- What `encrypt` returns, but for the key inside it, and what is left of the draws. -/
def texts (r : Result (CipherText × Draws)) : Result (BaseText × Draws) :=
  r.map fun p => (p.1.toBaseText, p.2)

theorem Restored.applyObfuscator_eq {pk' pk : PublicKey} (hr : Restored pk' pk) (cs : List ℤ) :
    applyObfuscator ipp me pk' cs = applyObfuscator ipp me pk cs := by
  unfold applyObfuscator getDJNObfuscator getNormalObfuscator
  rw [hr.djnEnabled, hr.nsquare.2, hr.testv.1, hr.testv.2, hr.n, hr.bits]
  by_cases hdjn : pk.djnEnabled = true
  · rw [hr.hs hdjn, hr.randbits hdjn]
    rfl
  · rw [if_neg hdjn, if_neg hdjn]
    rfl

theorem Restored.rawEncrypt_eq {pk' pk : PublicKey} (hr : Restored pk' pk) (pt : List ℤ)
    (makeSecure : Bool) :
    rawEncrypt ipp me pk' pt makeSecure = rawEncrypt ipp me pk pt makeSecure := by
  unfold rawEncrypt
  rw [hr.n, hr.nsquare.2]
  cases makeSecure with
  | false => rfl
  | true => exact hr.applyObfuscator_eq _

/-- A restored key encrypts like the other one. -/
theorem Restored.encrypt_eq {pk' pk : PublicKey} (hr : Restored pk' pk) (pt : PlainText)
    (makeSecure : Bool) (draws : Draws) : texts (encrypt ipp me pk' pt makeSecure draws)
      = texts (encrypt ipp me pk pt makeSecure draws) := by
  unfold encrypt
  rw [hr.isInitialized, hr.rawEncrypt_eq]
  cases pk.isInitialized with
  | false => rfl
  | true =>
      by_cases hsize : 0 < pt.getSize
      · simp only [hsize, decide_true, errorCheck_true]
        show texts (rawEncrypt ipp me pk pt.getTexts makeSecure draws >>= _)
          = texts (rawEncrypt ipp me pk pt.getTexts makeSecure draws >>= _)
        cases rawEncrypt ipp me pk pt.getTexts makeSecure draws with
        | error e => rfl
        | ok p => rfl
      · simp only [hsize, decide_false, errorCheck_false]
        rfl

/-- **A public key comes back from its archive, into any object.**

Its modulus and the base of its obfuscators are numbers of the type, whose words are counted in an
`int`. -/
theorem archive_restores (h : ipp.Lawful) {pk : PublicKey} (hpk : Built ipp me pk)
    (hbits : 32 ≤ pk.bits) (hn : Storable pk.n) (hhs : Storable pk.hs) (target : PublicKey) :
    ∃ pk', Load.exec (load ipp me) pk.save target = (.ok (), pk') ∧ Restored pk' pk ∧
      ∀ pt makeSecure draws, texts (encrypt ipp me pk' pt makeSecure draws)
        = texts (encrypt ipp me pk pt makeSecure draws) := by
  have hr := restored_rebuilt h (hpk.derived h) target
  refine ⟨rebuilt ipp target pk, ?_, hr, fun pt makeSecure draws => hr.encrypt_eq pt _ draws⟩
  have hload := load_save ipp me target hbits hn hhs []
  rw [List.append_nil] at hload
  rw [Load.exec, hload]
  rfl

/-- A key of 32 bits in DJN mode. -/
theorem archive_restores_djn : ∃ pk pk' : PublicKey, pk.djnEnabled = true ∧
    Load.exec (load Ipp.reference ModExp.reference) pk.save pk = (.ok (), pk') ∧
      Restored pk' pk ∧ ∀ pt makeSecure draws,
        texts (encrypt Ipp.reference ModExp.reference pk' pt makeSecure draws)
          = texts (encrypt Ipp.reference ModExp.reference pk pt makeSecure draws) := by
  let old : PublicKey :=
    { isInitialized := false, n := 0, g := 0, nsquare := 0, bits := 0, dwords := 0, hs := 0,
      randbits := 0, djnEnabled := false, r := [], testv := true }
  obtain ⟨pk, hpk, hdjn, hbits, hn, hhs⟩ : ∃ pk,
      createDJN Ipp.reference ModExp.reference old 4294967291 32 7 16 [] = .ok (pk, []) ∧
        pk.djnEnabled = true ∧ 32 ≤ pk.bits ∧ Storable pk.n ∧ Storable pk.hs :=
    ⟨_, rfl, rfl, le_refl (32 : ℤ), by decide, by decide⟩
  obtain ⟨pk', hpk'⟩ := archive_restores Ipp.reference_lawful (.createDJN hpk) hbits hn hhs pk
  exact ⟨pk, pk', hdjn, hpk'⟩

end PublicKey

/-! ### Ciphertexts -/

namespace CipherText

variable {ipp : Ipp} {me : ModExp}

/-- Reading into an object that already points to a key. -/
theorem load_save_keyed {ct target : CipherText} {pk old : PublicKey} (hpk : ct.pk = some pk)
    (hold : target.pk = some old) (hbits : 32 ≤ pk.bits) (hn : Storable pk.n)
    (hhs : Storable pk.hs) (hct : ∀ x ∈ ct.texts, Storable x) :
    ∃ ar, ct.save = .ok ar ∧ Load.exec (load ipp me) ar target
      = (.ok (), { ct with pk := some (PublicKey.rebuilt ipp old pk) }) := by
  have hsave : ct.save = .ok (ct.toBaseText.save ++ pk.save) := by
    rw [save, hpk]
    rfl
  have hkey := PublicKey.load_save ipp me old hbits hn hhs []
  rw [List.append_nil] at hkey
  have hderef : (Load.ofResult (deref target.pk) : Load CipherText PublicKey)
      (ct.toBaseText.save ++ pk.save) target
        = (.ok (old, ct.toBaseText.save ++ pk.save), target) := by
    rw [hold]
    rfl
  have hbase : onBase BaseText.load (ct.toBaseText.save ++ pk.save) target
      = (.ok ((), pk.save), { target with toBaseText := ct.toBaseText }) := by
    rw [onBase, BaseText.load_save hct]
  refine ⟨_, hsave, ?_⟩
  unfold Load.exec load
  rw [Load.bind_ok hderef, Load.bind_ok hbase, onKey, hkey]
  rfl

/-- The archive of a ciphertext, read into a new object, gives it back. -/
def Restores (ipp : Ipp) (me : ModExp) (ct : CipherText) : Prop :=
  ∃ ar, ct.save = .ok ar ∧ ∀ held, ∃ ct', Load.exec (load ipp me) ar (fresh held) = (.ok (), ct') ∧
    ct'.texts = ct.texts ∧ ct'.size = ct.size ∧
      ∃ pk pk', ct.pk = some pk ∧ ct'.pk = some pk' ∧ pk'.Restored pk

/-- **No ciphertext comes back in a new object.**  The pointer of the new object is
followed before anything is read. -/
theorem archive_never_restores (ct : CipherText) : ¬ Restores ipp me ct := by
  intro hrest
  obtain ⟨ar, -, hload⟩ := hrest
  obtain ⟨ct', hok, -⟩ := hload 0
  cases hok

/-- The plaintext 2 under the key 15, encrypted without an obfuscator. -/
theorem not_restored_thirty_one : ¬ Restores Ipp.reference ModExp.reference
    (ofNumber { isInitialized := true, n := 15, g := 16, nsquare := 225, bits := 32, dwords := 1,
                hs := 0, randbits := 0, djnEnabled := false, r := [], testv := false } 31) := by
  intro hrest
  obtain ⟨ar, -, hload⟩ := hrest
  obtain ⟨ct', hok, -⟩ := hload 0
  cases hok

end CipherText

end Ipcl
