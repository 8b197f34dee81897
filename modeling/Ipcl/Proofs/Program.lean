/-
A program over ciphertexts means what it means over integers.

The two machines are run side by side.  What ties their variables together is that a
ciphertext variable encrypts the vector of the plain machine element by element, under
the key noted beside it, and that a plaintext variable holds the vector itself.  Each
operation keeps this or throws what the plain machine throws; a statement reads
variables, performs an operation and assigns its target; and the program is an induction
over its statements.

Of the exponentiation the operations need the vectors whose exponents are not longer than
the modulus.  A build that sends nothing to the device raises these.
-/
import Ipcl.Lib.Refinement
import Ipcl.Proofs.Rotate
import Ipcl.Proofs.Serves
import Ipcl.Spec.Plain

namespace Ipcl

open BigNumber Paillier Supply Refinement

/-! ### Key pairs -/

namespace KeyPair

/-- A pair made from two primes that can decrypt.  In DJN mode the random exponents are not
longer than the modulus they are used under. -/
structure Made (ipp : Ipp) (me : ModExp) (p q : ℕ) (key : KeyPair) : Prop where
  p_prime : p.Prime
  q_prime : q.Prime
  ne : p ≠ q
  coprime : Nat.gcd (p * q) ((p - 1) * (q - 1)) = 1
  publicKey : ∃ (bits : ℤ) (djn : Bool) (supply rest : Draws), 2 ≤ bits ∧
    PublicKey.new ipp me (p * q : ℕ) bits djn supply = .ok (key.pk, rest) ∧
    (djn = true → IsCoprime key.pk.hs ((p * q : ℕ) : ℤ))
  exponents : key.pk.djnEnabled = true → key.pk.randbits.toNat ≤ bitLen key.pk.nsquare
  privateKey : PrivateKey.Built ipp me p q key.sk

/-- What the operations need of a pair. -/
structure Ready (ipp : Ipp) (P : PrimePair) (key : KeyPair) : Prop where
  pk : key.pk.Ready P.n
  raised : ∀ v, Short (key.pk.raisedFor ipp v)
  sk : key.sk = PrivateKey.ofPair ipp P

theorem Made.ready {ipp : Ipp} {me : ModExp} (h : ipp.Lawful) (hme : me.OneExact) {p q : ℕ}
    {key : KeyPair} (hkey : key.Made ipp me p q) :
    ∃ P : PrimePair, P.n = p * q ∧ key.Ready ipp P := by
  obtain ⟨hp, hq, hne, hcop, ⟨bits, djn, supply, rest, hbits, hnew, hhs⟩, hexps, hsk⟩ := hkey
  have hpq := PrimePair.n_ofPrimes hp hq hne hcop
  have hkey := hsk.eq_ofPair h hme hp hq hne hcop
  rw [← hpq] at hnew hhs
  generalize PrimePair.ofPrimes hp hq hne hcop = P at hpq hkey hnew hhs
  have hn : 1 < P.n := P.q_prime.one_lt.trans P.q_lt_n
  have hready : key.pk.Ready P.n :=
    (PublicKey.new_returns h hme hn P.n_odd bits djn supply key.pk rest (by simp) hnew).1.ready
      P.n_pos hbits hhs
  exact ⟨P, hpq, hready, PublicKey.raisedFor_short hn hready.shaped hexps, hkey⟩

end KeyPair

namespace Plain

/-! ### What binds the library -/

/-- An exception thrown by the plain machine is thrown by the library. -/
def Binding (e : Error) : Prop := ∃ msg, e = .runtime msg

section
variable {α β γ : Type} {R : α → β → Prop} {prog : Result α}

/-- Variables that are read have been assigned. -/
theorem meets_read {o : Option γ} {f : γ → Result β}
    (h : ∀ x, o = some x → Meets Binding R prog (f x)) : Meets Binding R prog (read o >>= f) := by
  cases o with
  | some x => exact h x rfl
  | none =>
      apply Meets.free
      rintro ⟨msg, hmsg⟩
      cases hmsg

theorem meets_require {c : Bool} {what : String} {f : Unit → Result β}
    (h : c = true → Meets Binding R prog (f ())) :
    Meets Binding R prog (require c what >>= f) := by
  cases c with
  | true => exact h rfl
  | false =>
      apply Meets.free
      rintro ⟨msg, hmsg⟩
      cases hmsg

/-- A test of the plain machine that the library makes as well. -/
theorem meets_check {c : Bool} {msg : String} {f : Unit → Result β}
    (hfail : c = false → prog = .error (.runtime msg))
    (h : c = true → Meets Binding R prog (f ())) :
    Meets Binding R prog (errorCheck c msg >>= f) := by
  cases c with
  | true => exact h rfl
  | false =>
      rw [hfail rfl]
      exact Meets.error _

/-- An element within the vector. -/
theorem meets_elemAt {xs : List γ} {i : ℕ} {f : γ → Result β} (hi : i < xs.length)
    (h : Meets Binding R prog (f xs[i])) : Meets Binding R prog (elemAt xs i >>= f) := by
  rw [elemAt_eq hi]
  exact h

end

/-! ### The operations -/

section
variable {κ : Type} {ipp : Ipp} {me : ModExp} {keys : κ → KeyPair} {P : κ → PrimePair}

/-- The ciphertext encrypts the vector under its key. -/
def Opens (keys : κ → KeyPair) (P : κ → PrimePair) (c : CipherText) (x : Sealed κ) : Prop :=
  EncryptsVec (P x.key).n (keys x.key).pk c x.values

variable (h : ipp.Lawful) (hme : me.Lawful Short) (hkeys : ∀ k, (keys k).Ready ipp (P k))
variable {a b : CipherText} {x y : Sealed κ}

theorem one_lt_n (k : κ) : 1 < (P k).n := (P k).q_prime.one_lt.trans (P k).q_lt_n

theorem Opens.size (hx : Opens keys P a x) : a.size = x.values.length := by
  rw [hx.of_key.size_eq, hx.length_eq]

theorem Opens.pk (hx : Opens keys P a x) : a.pk = some (keys x.key).pk := hx.of_key.pk_eq

/-- The elements, under any key with the same modulus. -/
theorem Opens.texts (hx : Opens keys P a x) {k : κ} (hk : (P k).n = (P x.key).n) :
    List.Forall₂ (Cipher (P k).n) a.texts x.values := by
  rw [hk]
  exact EncryptsVec.texts hx

/-- Only the modulus of the second key is read. -/
theorem addCT_key {pk pk' : PublicKey} (ha : a.pk = some pk) (hb : b.pk = some pk')
    (hn : pk'.n = pk.n) : CipherText.addCT ipp a b
      = CipherText.addCT ipp a { b with pk := some pk } := by
  simp only [CipherText.addCT, ha, hb, deref_some, Result.bind_ok, hn, BaseText.getSize,
    BaseText.getTexts]

include h hkeys in
theorem addCT_meets (hx : Opens keys P a x) (hy : Opens keys P b y) :
    Meets Binding (Opens keys P) (CipherText.addCT ipp a b) (x.addCT (fun k => (P k).n) y) := by
  have hna := (hkeys x.key).pk.for_n
  have hnb := (hkeys y.key).pk.for_n
  have hsize : (a.size == b.getSize || b.getSize == 1) = Sealed.fits x.values y.values := by
    rw [hx.size, show b.getSize = y.values.length from hy.size]
    rfl
  have hkey : eq ipp (keys x.key).pk.n (keys y.key).pk.n
      = decide ((P x.key).n = (P y.key).n) := by
    rw [eq_of_nonneg h (by rw [hna.n_eq]; omega) (by rw [hnb.n_eq]; omega), hna.n_eq, hnb.n_eq]
    simp
  apply meets_check
  · intro hfit
    rw [CipherText.addCT, hsize, hfit]
    rfl
  intro hfit
  apply meets_check
  · intro hne
    simp only [CipherText.addCT, hsize, hfit, hx.pk, hy.pk, hkey, hne, errorCheck_true,
      errorCheck_false, deref_some, Result.bind_ok, Result.bind_error]
  intro heq
  have hn : (P x.key).n = (P y.key).n := of_decide_eq_true heq
  have hb : EncryptsVec (P x.key).n (keys x.key).pk { b with pk := some (keys x.key).pk }
      y.values := ⟨⟨rfl, hy.of_key.size_eq⟩, hy.texts hn⟩
  have hlen : y.values.length = x.values.length ∨ y.values.length = 1 := by
    simp only [Sealed.fits, Bool.or_eq_true, beq_iff_eq] at hfit
    omega
  obtain ⟨c, hc, hsum⟩ := EncryptsVec.addCT h (one_lt_n x.key) hna hx hb hlen
  refine Meets.of_eq ?_ hsum
  rw [addCT_key hx.pk hy.pk (by rw [hna.n_eq, hnb.n_eq, hn]), hc]

include hme hkeys in
theorem mulPT_meets (hx : Opens keys P a x) (ks : List ℤ) :
    Meets Binding (Opens keys P) (CipherText.mulPT me a (BaseText.ofVec ks))
      (x.mulPT (fun k => (P k).n) ks) := by
  have hpk := (hkeys x.key).pk.for_n
  have hsize : (a.size == (BaseText.ofVec ks).getSize || (BaseText.ofVec ks).getSize == 1)
      = Sealed.fits x.values ks := by
    rw [hx.size]
    rfl
  apply meets_check
  · intro hfit
    rw [CipherText.mulPT, hsize, hfit]
    rfl
  intro hfit
  apply meets_require
  intro hpos
  apply meets_require
  intro hcount
  apply meets_require
  intro hks
  apply meets_require
  intro hshort
  have hlen : ks.length = x.values.length ∨ ks.length = 1 := by
    simp only [Sealed.fits, Bool.or_eq_true, beq_iff_eq] at hfit
    omega
  have hne : x.values ≠ [] := List.length_pos_iff.mp (of_decide_eq_true hpos)
  have htakes : x.values.length ≠ 1 →
      ∀ c ∈ a.texts, ∀ k ∈ ks, Short (c, k, (keys x.key).pk.nsquare) := by
    intro hone c _ k hk
    simp only [Bool.or_eq_true, beq_iff_eq, hone, false_or, List.all_eq_true,
      decide_eq_true_eq] at hshort
    rw [hpk.nsquare_eq]
    exact hshort k hk
  obtain ⟨c, hc, hprod⟩ := EncryptsVec.mulPT hme (one_lt_n x.key) (P x.key).n_odd hpk hx hne
    (of_decide_eq_true hcount) hlen (by simpa using hks) htakes
  exact Meets.of_eq hc hprod

theorem rotate_meets (hx : Opens keys P a x) (s : Int32) :
    Meets Binding (Opens keys P) (CipherText.rotate a s) (x.rotate s) := by
  have ha : a = CipherText.sized x.values.length a.texts (keys x.key).pk := by
    rw [CipherText.sized, ← hx.size, ← hx.pk]
  have hlen : a.texts.length = x.values.length := hx.length_eq
  have hlo := s.le_toInt
  have hhi := s.toInt_lt
  apply meets_check
  · intro hone
    have hsize : (a.size != 1) = false := by rw [hx.size, hone]
    rw [CipherText.rotate, hsize]
    rfl
  intro hone
  apply meets_require
  intro hsmall
  have hm1 : x.values.length ≠ 1 := by simpa using hone
  have hm31 : x.values.length < 2 ^ 31 := of_decide_eq_true hsmall
  have hcast : toInt x.values.length = x.values.length := toInt_of_lt hm31
  apply meets_check
  · intro hout
    rw [ha]
    refine CipherText.rotate_refused hm1 (by omega) fun hguard => ?_
    rcases Int.lt_or_le s.toInt 0 with hneg | h0
    · have := CipherText.toSize_of_neg hneg hlo
      omega
    · have := CipherText.toSize_of_nonneg h0 hhi
      simp only [Bool.and_eq_false_iff, decide_eq_false_iff_not] at hout
      omega
  intro hin
  simp only [Bool.and_eq_true, decide_eq_true_eq] at hin
  refine Meets.of_eq ?_ ⟨CipherText.of_ofVec (keys x.key).pk (Cyclic.shift a.texts s.toInt),
    Cyclic.forall₂_shift (EncryptsVec.texts hx) s.toInt⟩
  rw [ha]
  by_cases hzero : x.values.length = 0
  · have hs : s.toInt = 0 := by omega
    have hnat := CipherText.toSize_of_nonneg hin.1 hhi
    rw [CipherText.rotate_same hm1 (by omega) ⟨by omega, by omega⟩ (.inl hs), hs]
    simp [CipherText.sized]
  · exact (CipherText.rotates_of_fits (by omega) (by omega) (.inl ⟨hm31, .inl hin.1⟩)).turns
      ⟨by omega, hin.2⟩ a.texts (keys x.key).pk hlen

theorem getCipherText_meets (hx : Opens keys P a x) (idx : ℕ) :
    Meets Binding (Opens keys P) (a.getCipherText idx) (x.getCipherText idx) := by
  have hsize := hx.size
  apply meets_check
  · intro hout
    rw [CipherText.getCipherText, hsize, hout]
    rfl
  intro hin
  have hlt : idx < x.values.length := of_decide_eq_true hin
  have hlt' : idx < a.texts.length := by rw [hx.length_eq]; exact hlt
  apply meets_elemAt hlt
  have hcode : a.getCipherText idx = .ok (CipherText.ofNumber (keys x.key).pk a.texts[idx]) := by
    rw [CipherText.getCipherText, hsize, hin, hx.pk, elemAt_eq hlt']
    rfl
  refine Meets.of_eq hcode ⟨⟨rfl, rfl⟩, ?_⟩
  exact .cons ((List.forall₂_iff_get.mp (EncryptsVec.texts hx)).2 idx hlt' hlt) .nil

/-- Taking an element for a function that changes another ciphertext. -/
theorem taken_meets (hy : Opens keys P b y) (idx : ℕ) {f : BaseText → ℤ → Result BaseText}
    {g : ℤ → Result (Sealed κ)}
    (hfg : ∀ c m, ((P x.key).n = (P y.key).n → Cipher (P x.key).n c m) →
      Meets Binding (Opens keys P) (a.viaBase fun t => f t c) (g m)) :
    Meets Binding (Opens keys P) (b.getElement idx >>= fun bn => a.viaBase fun t => f t bn)
      (errorCheck (idx < y.values.length) "BaseText: getElement index is out of range" >>=
        fun _ => elemAt y.values idx >>= g) := by
  have hsize := hy.size
  apply meets_check
  · intro hout
    rw [BaseText.getElement, hsize, hout]
    rfl
  intro hin
  have hlt : idx < y.values.length := of_decide_eq_true hin
  have hlt' : idx < b.texts.length := by rw [hy.length_eq]; exact hlt
  have hcode : b.getElement idx = .ok b.texts[idx] := by
    rw [BaseText.getElement, hsize, hin, elemAt_eq hlt']
    rfl
  apply meets_elemAt hlt
  rw [hcode]
  apply hfg
  intro hn
  exact (List.forall₂_iff_get.mp (hy.texts hn)).2 idx hlt' hlt

/-- What a function of the base class leaves. -/
theorem viaBase_ok {f : BaseText → Result BaseText} {texts : List ℤ} {size : ℕ}
    (hf : f a.toBaseText = .ok ⟨texts, size⟩) :
    a.viaBase f = .ok { BaseText.mk texts size with pk := a.pk } := by
  rw [CipherText.viaBase, hf]
  rfl

theorem insert_meets (hx : Opens keys P a x) (hy : Opens keys P b y) (pos idx : ℕ) :
    Meets Binding (Opens keys P)
      (b.getElement idx >>= fun bn => a.viaBase fun t => t.insert pos bn)
      (x.insert (fun k => (P k).n) y pos idx) := by
  apply taken_meets hy
  intro c m hc
  have hwf : a.toBaseText.WF := hx.of_key.size_eq
  apply meets_check
  · intro hout
    rw [CipherText.viaBase, BaseText.insert, hx.size, hout]
    rfl
  intro hpos
  apply meets_require
  intro hn
  have hle : pos ≤ a.texts.length := by
    rw [hx.length_eq]
    exact of_decide_eq_true hpos
  refine Meets.of_eq (viaBase_ok (BaseText.insert_eq hwf hle c)) ⟨⟨hx.pk, ?_⟩, ?_⟩
  · rw [hwf]
    simp
    omega
  · exact List.rel_append (List.forall₂_take pos (EncryptsVec.texts hx))
      (.cons (hc (of_decide_eq_true hn)) (List.forall₂_drop pos (EncryptsVec.texts hx)))

theorem write_meets (hx : Opens keys P a x) (hy : Opens keys P b y) (pos idx : ℕ) :
    Meets Binding (Opens keys P)
      (b.getElement idx >>= fun bn => a.viaBase fun t => t.write pos bn)
      (x.write (fun k => (P k).n) y pos idx) := by
  apply taken_meets hy
  intro c m hc
  have hwf : a.toBaseText.WF := hx.of_key.size_eq
  apply meets_check
  · intro hout
    rw [CipherText.viaBase, BaseText.write, BaseText.index, hx.size, hout]
    rfl
  intro hpos
  apply meets_require
  intro hn
  have hlt : pos < x.values.length := of_decide_eq_true hpos
  have hlt' : pos < a.texts.length := by rw [hx.length_eq]; exact hlt
  have hwrite : a.toBaseText.write pos c = .ok ⟨a.texts.set pos c, a.size⟩ := by
    rw [BaseText.write, BaseText.index_eq hwf hlt']
    rfl
  refine Meets.of_eq (viaBase_ok hwrite) ⟨⟨hx.pk, ?_⟩, ?_⟩
  · show a.size = (a.texts.set pos c).length
    rw [List.length_set]
    exact hwf
  · show List.Forall₂ _ (a.texts.set pos c) (x.values.set pos m)
    rw [List.set_eq_take_append_cons_drop, List.set_eq_take_append_cons_drop, if_pos hlt,
      if_pos hlt']
    exact List.rel_append (List.forall₂_take pos (EncryptsVec.texts hx))
      (.cons (hc (of_decide_eq_true hn)) (List.forall₂_drop (pos + 1) (EncryptsVec.texts hx)))

theorem remove_meets (hx : Opens keys P a x) (pos length : UInt64) :
    Meets Binding (Opens keys P) (a.viaBase fun t => t.remove pos length)
      (x.remove pos length) := by
  have hwf : a.toBaseText.WF := hx.of_key.size_eq
  apply meets_require
  intro hsum
  have hsum : pos.toNat + length.toNat < 2 ^ 64 := of_decide_eq_true hsum
  apply meets_check
  · intro hout
    rw [CipherText.viaBase, BaseText.remove, BaseText.toNat_add_of_lt hsum, hx.size, hout]
    rfl
  intro hin
  have hlt : pos.toNat + length.toNat < a.texts.length := by
    rw [hx.length_eq]
    exact of_decide_eq_true hin
  refine Meets.of_eq (viaBase_ok (BaseText.remove_eq hwf hsum hlt)) ⟨⟨hx.pk, ?_⟩, ?_⟩
  · rw [hwf]
    simp
    omega
  · exact List.rel_append (List.forall₂_take _ (EncryptsVec.texts hx))
      (List.forall₂_drop _ (EncryptsVec.texts hx))

theorem clear_opens (hx : Opens keys P a x) :
    Opens keys P { a.toBaseText.clear with pk := a.pk } x.clear :=
  ⟨⟨hx.pk, rfl⟩, .nil⟩

include h hme hkeys in
theorem decrypt_meets (hx : Opens keys P a x) (key : κ) (crt : Bool) :
    Meets Binding (fun t xs => t = BaseText.ofVec xs)
      (PrivateKey.decrypt ipp me ((keys key).sk.enableCRT crt) a)
      (x.decrypt (fun k => (P k).n) key) := by
  have hpk := (hkeys x.key).pk.for_n
  have hinit : (PrivateKey.enableCRT (PrivateKey.ofPair ipp (P key)) crt).isInitialized = true :=
    rfl
  have hskn : (PrivateKey.enableCRT (PrivateKey.ofPair ipp (P key)) crt).n = (P key).n := rfl
  have heq : eq ipp (keys x.key).pk.n (P key).n = decide ((P x.key).n = (P key).n) := by
    rw [eq_of_nonneg h (by rw [hpk.n_eq]; omega) (by omega), hpk.n_eq]
    simp
  rw [(hkeys key).sk]
  apply meets_check
  · intro hne
    simp only [PrivateKey.decrypt, hinit, hskn, hx.pk, heq, hne, deref_some, errorCheck_true,
      errorCheck_false, Result.bind_ok, Result.bind_error]
  intro hsame
  apply meets_check
  · intro hempty
    have hsize : a.getSize = x.values.length := hx.size
    simp only [PrivateKey.decrypt, hinit, hskn, hx.pk, heq, hsame, hsize, hempty, deref_some,
      errorCheck_true, errorCheck_false, Result.bind_ok, Result.bind_error]
  intro hpos
  apply meets_require
  intro hcount
  have hn : (P x.key).n = (P key).n := of_decide_eq_true hsame
  have hne : x.values ≠ [] := List.length_pos_iff.mp (of_decide_eq_true hpos)
  have hct : EncryptsVec (P key).n (keys x.key).pk a x.values := hn ▸ hx
  exact Meets.of_eq (PrivateKey.decrypt_encryptsVec h hme (P key) (hn ▸ hpk) hct hne
    (of_decide_eq_true hcount) crt) rfl

/-! ### Drawing -/

/-- The draws are good for every key. -/
def Fed (ipp : Ipp) (keys : κ → KeyPair) (draws : Draws) : Prop :=
  ∀ d ∈ draws, ∀ k, (keys k).pk.GoodDraw ipp d

theorem Fed.drop {draws : Draws} (hfed : Fed ipp keys draws) (k : ℕ) :
    Fed ipp keys (draws.drop k) :=
  fun d hd => hfed d (List.mem_of_mem_drop hd)

/-- An empty vector is not encrypted. -/
theorem encrypt_empty {pk : PublicKey} (hinit : pk.isInitialized = true) (makeSecure : Bool)
    (draws : Draws) : pk.encrypt ipp me (BaseText.ofVec []) makeSecure draws
      = .error (.runtime "encrypt: Cannot encrypt empty PlainText") := by
  rw [PublicKey.encrypt, hinit]
  rfl

include h hme hkeys in
theorem encrypt_ok {draws : Draws} (hfed : Fed ipp keys draws) {xs : List ℤ} (hne : xs ≠ [])
    (key : κ) {makeSecure : Bool} (hcount : makeSecure = true → xs.length < 2 ^ 31)
    (hlen : PublicKey.drawsOf xs makeSecure ≤ draws.length) :
    ∃ c, (keys key).pk.encrypt ipp me (BaseText.ofVec xs) makeSecure draws
        = .ok (c, draws.drop (PublicKey.drawsOf xs makeSecure)) ∧
      Opens keys P c ⟨key, xs⟩ := by
  obtain ⟨c, hc, hof, htexts⟩ := PublicKey.encrypt_yields h hme (one_lt_n key) (P key).n_odd
    (hkeys key).pk (hkeys key).raised hne hcount draws hlen fun d hd => hfed d hd key
  exact ⟨c, hc, hof, htexts⟩

include h hme hkeys in
theorem addPT_meets {draws : Draws} (hfed : Fed ipp keys draws) (hx : Opens keys P a x)
    (ys : List ℤ) :
    Meets Binding (fun c z => c.2 = draws ∧ Opens keys P c.1 z)
      (CipherText.addPT ipp me a (BaseText.ofVec ys) draws) (x.addPT ys) := by
  have hcode : CipherText.addPT ipp me a (BaseText.ofVec ys) draws
      = ((keys x.key).pk.encrypt ipp me (BaseText.ofVec ys) false draws >>= fun c =>
          CipherText.addCT ipp a c.1 >>= fun z => .ok (z, c.2)) := by
    rw [CipherText.addPT, hx.pk, deref_some, Rand.liftM_ok, pure_bind]
    show ((keys x.key).pk.encrypt ipp me (BaseText.ofVec ys) false draws >>= fun c =>
      (liftM (CipherText.addCT ipp a c.1) : Rand CipherText) c.2) = _
    refine bind_congr fun c => ?_
    cases CipherText.addCT ipp a c.1 <;> rfl
  rw [hcode]
  apply meets_check
  · intro hempty
    obtain rfl : ys = [] := by simpa using hempty
    rw [encrypt_empty (hkeys x.key).pk.initialized]
    rfl
  intro hpos
  have hne : ys ≠ [] := List.length_pos_iff.mp (of_decide_eq_true hpos)
  have hclear : false = true → ys.length < 2 ^ 31 := nofun
  obtain ⟨b, hb, hy⟩ := encrypt_ok h hme hkeys hfed hne x.key hclear (Nat.zero_le _)
  rw [hb]
  have hsum := addCT_meets h hkeys hx hy
  have hspec : x.addCT (fun k => (P k).n) ⟨x.key, ys⟩
      = (errorCheck (Sealed.fits x.values ys) "CT + CT error: Size mismatch!" >>= fun _ =>
          pure ⟨x.key, Vec.broadcast (fun m m' => m + m') x.values ys⟩) := by
    rw [Sealed.addCT, decide_eq_true rfl]
    rfl
  rw [hspec] at hsum
  rw [← bind_pure (errorCheck _ _ >>= _)]
  exact hsum.bind fun c z hz => Meets.ok ⟨rfl, hz⟩

/-! ### Statements and programs -/

/-- The two machines side by side. -/
structure Tied (ipp : Ipp) (keys : κ → KeyPair) (P : κ → PrimePair) (c : Variables × Draws)
    (s : State κ) : Prop where
  cipher : ∀ d x, s.cipher d = some x → Opens keys P (c.1.cipher d) x
  plain : ∀ p xs, s.plain p = some xs → c.1.plain p = BaseText.ofVec xs
  left : c.2.length = s.left
  fed : Fed ipp keys c.2

variable {v : Variables} {draws : Draws} {s : State κ}

theorem Tied.fresh (hfed : Fed ipp keys draws) (held : ℕ) :
    Tied ipp keys P (.fresh held, draws) (.fresh draws.length) where
  cipher d x hx := by cases hx
  plain p xs hxs := by cases hxs
  left := rfl
  fed := hfed

theorem Tied.setCipher (hs : Tied ipp keys P (v, draws) s) (hx : Opens keys P a x) (d : ℕ) :
    Tied ipp keys P (v.setCipher d a, draws) (s.setCipher d x) where
  cipher d' z hz := by
    by_cases hd : d' = d
    · subst hd
      simp only [State.setCipher, Function.update_self, Option.some.injEq] at hz
      simpa [Variables.setCipher, ← hz] using hx
    · simp only [State.setCipher, Function.update_of_ne hd] at hz
      simpa [Variables.setCipher, Function.update_of_ne hd] using hs.cipher d' z hz
  plain := hs.plain
  left := hs.left
  fed := hs.fed

theorem Tied.setPlain (hs : Tied ipp keys P (v, draws) s) (p : ℕ) (xs : List ℤ) :
    Tied ipp keys P (v.setPlain p (BaseText.ofVec xs), draws) (s.setPlain p xs) where
  cipher := hs.cipher
  plain p' ys hys := by
    by_cases hp : p' = p
    · subst hp
      simp only [State.setPlain, Function.update_self, Option.some.injEq] at hys
      simp [Variables.setPlain, ← hys]
    · simp only [State.setPlain, Function.update_of_ne hp] at hys
      simpa [Variables.setPlain, Function.update_of_ne hp] using hs.plain p' ys hys
  left := hs.left
  fed := hs.fed

theorem Tied.drawn (hs : Tied ipp keys P (v, draws) s) (k : ℕ) :
    Tied ipp keys P (v, draws.drop k) { s with left := s.left - k } where
  cipher := hs.cipher
  plain := hs.plain
  left := by
    rw [List.length_drop, ← hs.left]
  fed := hs.fed.drop k

/-- Assigning the outcome of an operation that draws nothing. -/
theorem meets_cipher (hs : Tied ipp keys P (v, draws) s) {code : Result CipherText}
    {spec : Result (Sealed κ)} (hm : Meets Binding (Opens keys P) code spec) (d : ℕ) :
    Meets Binding (Tied ipp keys P)
      ((liftM code >>= fun c => pure (v.setCipher d c) : Rand Variables) draws)
      (spec >>= fun z => pure (s.setCipher d z)) := by
  have hrun : (liftM code >>= fun c => pure (v.setCipher d c) : Rand Variables) draws
      = code >>= fun c => .ok (v.setCipher d c, draws) := by
    cases code <;> rfl
  rw [hrun]
  exact hm.bind fun c z hz => Meets.ok (hs.setCipher hz d)

/-- Two operations that draw nothing, one after the other. -/
theorem liftM_bind {α β γ : Type} (r : Result α) (f : α → Result β) (g : β → Rand γ) :
    (do
      let x ← (liftM r : Rand α)
      let y ← (liftM (f x) : Rand β)
      g y : Rand γ) = (do
      let y ← (liftM (r >>= f) : Rand β)
      g y) := by
  cases r <;> rfl

include h hme hkeys in
/-- The one statement that draws. -/
theorem encrypt_meets (hs : Tied ipp keys P (v, draws) s) (d : ℕ) (key : κ) (p : ℕ)
    (makeSecure : Bool) :
    Meets Binding (Tied ipp keys P)
      (Statement.step ipp me keys v (.encrypt d key p makeSecure) draws)
      (step (fun k => (P k).n) s (.encrypt d key p makeSecure)) := by
  apply meets_read
  intro xs hxs
  have hcode : Statement.step ipp me keys v (.encrypt d key p makeSecure) draws
      = ((keys key).pk.encrypt ipp me (BaseText.ofVec xs) makeSecure draws >>= fun c =>
          .ok (v.setCipher d c.1, c.2)) := by
    rw [← hs.plain p xs hxs]
    rfl
  rw [hcode]
  apply meets_check
  · intro hempty
    obtain rfl : xs = [] := by simpa using hempty
    rw [encrypt_empty (hkeys key).pk.initialized]
    rfl
  intro hpos
  apply meets_require
  intro hcount
  have hne : xs ≠ [] := List.length_pos_iff.mp (of_decide_eq_true hpos)
  by_cases hlen : (if makeSecure then xs.length else 0) ≤ s.left
  · have hdraws : PublicKey.drawsOf xs makeSecure ≤ draws.length := by
      rw [hs.left]
      exact hlen
    obtain ⟨c, hc, hopens⟩ :=
      encrypt_ok h hme hkeys hs.fed hne key (of_decide_eq_true hcount) hdraws
    simp only [hc, hlen, if_true]
    exact Meets.ok ((hs.drawn _).setCipher hopens d)
  · simp only [hlen, if_false]
    apply Meets.free
    rintro ⟨msg, hmsg⟩
    cases hmsg

include h hme hkeys in
/-- A statement does in both machines the same. -/
theorem step_meets (hs : Tied ipp keys P (v, draws) s) (i : Statement κ) :
    Meets Binding (Tied ipp keys P) (Statement.step ipp me keys v i draws)
      (step (fun k => (P k).n) s i) := by
  cases i with
  | load p xs => exact Meets.ok (hs.setPlain p xs)
  | encrypt d key p makeSecure => exact encrypt_meets h hme hkeys hs d key p makeSecure
  | decrypt p key a crt =>
      apply meets_read
      intro x hx
      have hm := decrypt_meets h hme hkeys (hs.cipher a x hx) key crt
      have hcode : Statement.step ipp me keys v (.decrypt p key a crt) draws
          = (PrivateKey.decrypt ipp me ((keys key).sk.enableCRT crt) (v.cipher a) >>= fun t =>
              .ok (v.setPlain p t, draws)) := by
        rw [Statement.step]
        cases PrivateKey.decrypt ipp me ((keys key).sk.enableCRT crt) (v.cipher a) <;> rfl
      rw [hcode]
      apply hm.bind
      rintro t xs rfl
      exact Meets.ok (hs.setPlain p xs)
  | addCT d a b =>
      apply meets_read
      intro x hx
      apply meets_read
      intro y hy
      exact meets_cipher hs (addCT_meets h hkeys (hs.cipher a x hx) (hs.cipher b y hy)) d
  | addPT d a p =>
      apply meets_read
      intro x hx
      apply meets_read
      intro ys hys
      have hm := addPT_meets h hme hkeys hs.fed (hs.cipher a x hx) ys
      have hcode : Statement.step ipp me keys v (.addPT d a p) draws
          = (CipherText.addPT ipp me (v.cipher a) (BaseText.ofVec ys) draws >>= fun c =>
              .ok (v.setCipher d c.1, c.2)) := by
        rw [← hs.plain p ys hys]
        rfl
      rw [hcode]
      apply hm.bind
      rintro ⟨c, rest⟩ z ⟨rfl, hz⟩
      exact Meets.ok (hs.setCipher hz d)
  | mulPT d a p =>
      apply meets_read
      intro x hx
      apply meets_read
      intro ks hks
      rw [Statement.step, hs.plain p ks hks]
      exact meets_cipher hs (mulPT_meets hme hkeys (hs.cipher a x hx) ks) d
  | rotate d a shift =>
      apply meets_read
      intro x hx
      exact meets_cipher hs (rotate_meets (hs.cipher a x hx) shift) d
  | getCipherText d a idx =>
      apply meets_read
      intro x hx
      exact meets_cipher hs (getCipherText_meets (hs.cipher a x hx) idx) d
  | assign d a =>
      apply meets_read
      intro x hx
      exact Meets.ok (hs.setCipher (hs.cipher a x hx) d)
  | insert d pos a idx =>
      apply meets_read
      intro y hy
      apply meets_read
      intro x hx
      rw [Statement.step, liftM_bind]
      exact meets_cipher hs (insert_meets (hs.cipher d x hx) (hs.cipher a y hy) pos idx) d
  | write d pos a idx =>
      apply meets_read
      intro y hy
      apply meets_read
      intro x hx
      rw [Statement.step, liftM_bind]
      exact meets_cipher hs (write_meets (hs.cipher d x hx) (hs.cipher a y hy) pos idx) d
  | remove d pos length =>
      apply meets_read
      intro x hx
      exact meets_cipher hs (remove_meets (hs.cipher d x hx) pos length) d
  | clear d =>
      apply meets_read
      intro x hx
      exact Meets.ok (hs.setCipher (clear_opens (hs.cipher d x hx)) d)

include h hme hkeys in
theorem run_meets (hs : Tied ipp keys P (v, draws) s) (prog : List (Statement κ)) :
    Meets Binding (Tied ipp keys P) (Statement.run ipp me keys prog v draws)
      (run (fun k => (P k).n) prog s) := by
  rw [Statement.run, foldlM_run]
  apply Meets.foldlM
  · intro i c s hs
    exact step_meets h hme hkeys hs i
  · exact hs

end

/-- Three numbers, encrypted, turned, one of them doubled into a place of its own, and then
either decrypted or turned the other way. -/
def threeNumbers (last : Statement Unit) : List (Statement Unit) :=
  [.load 0 [7, -3, 2], .encrypt 0 () 0 true, .rotate 1 0 1, .load 1 [2], .getCipherText 2 1 0,
    .mulPT 2 2 1, .insert 1 3 2 0, .addCT 1 1 2, last]

end Plain

end Ipcl
