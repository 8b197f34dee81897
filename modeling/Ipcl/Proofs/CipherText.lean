/-
The three branches of the operators are one broadcast.

`operator+` and `operator*` choose between one element, a vector against one
element and two vectors by the stored sizes.  On operands whose stored sizes are
right, and whose lengths the size check lets through, each branch is the same
broadcast of the operation on numbers.
-/
import Ipcl.CipherText

namespace Ipcl.CipherText

open BigNumber

variable {ipp : Ipp} {me : ModExp}

/-- A ciphertext whose stored size is right and whose key is set. -/
structure Of (pk : PublicKey) (ct : CipherText) : Prop where
  pk_eq : ct.pk = some pk
  size_eq : ct.size = ct.texts.length

theorem of_ofVec (pk : PublicKey) (bnV : List ℤ) : Of pk (ofVec pk bnV) := ⟨rfl, rfl⟩

/-- The lengths the size check lets through. -/
def Fitting (xs ys : List ℤ) : Prop := ys.length = xs.length ∨ ys.length = 1

theorem Fitting.check {xs ys : List ℤ} (hfit : Fitting xs ys) :
    (xs.length == ys.length || ys.length == 1) = true := by
  simp only [Bool.or_eq_true, beq_iff_eq]
  rcases hfit with hfit | hfit
  · exact Or.inl hfit.symm
  · exact Or.inr hfit

theorem addCT_eq (h : ipp.Lawful) {pk : PublicKey} {a b : CipherText} (hpk : 0 ≤ pk.n)
    (ha : Of pk a) (hb : Of pk b) (hfit : Fitting a.texts b.texts) :
    addCT ipp a b = .ok (ofVec pk (Vec.broadcast (rawAdd ipp pk) a.texts b.texts)) := by
  have hn : eq ipp pk.n pk.n = true := by
    rw [eq_of_nonneg h hpk hpk, decide_eq_true rfl]
  have hb1 : b.getSize = b.texts.length := hb.size_eq
  simp only [addCT, hfit.check, errorCheck_true, ha.pk_eq, hb.pk_eq, deref_some, hn, Result.bind_ok,
    ha.size_eq, hb1, BaseText.getTexts, beq_iff_eq]
  by_cases hone : a.texts.length = 1
  · obtain ⟨x, hx⟩ := List.length_eq_one_iff.mp hone
    obtain ⟨y, hy⟩ : ∃ y, b.texts = [y] := List.length_eq_one_iff.mp (by
      rcases hfit with hfit | hfit <;> omega)
    rw [if_pos hone, hx, hy]
    rfl
  rw [if_neg hone]
  by_cases hone' : b.texts.length = 1
  · obtain ⟨y, hy⟩ := List.length_eq_one_iff.mp hone'
    rw [if_pos hone', hy]
    have hloop := mapM_elemAt (fun x => rawAdd ipp pk x y) (rfl : a.texts.length = _)
    have hy0 : elemAt [y] 0 = .ok y := rfl
    simp only [hy0, Result.bind_ok, hloop]
    rfl
  · have hlen : b.texts.length = a.texts.length := by
      rcases hfit with hfit | hfit <;> omega
    rw [if_neg hone', mapM_elemAt₂ _ rfl hlen, Vec.broadcast_of_length_eq _ hlen]
    rfl

/-! ### Products -/

/-- What a product raises: each text to its multiplier, modulo `n ^ 2`. -/
def raised (pk : PublicKey) (xs ks : List ℤ) : List Triple :=
  Vec.broadcast (fun x k => (x, k, pk.nsquare)) xs ks

section
variable {pk : PublicKey} {a : CipherText} {x k : ℤ} {xs ks : List ℤ}

theorem length_raised (hfit : Fitting xs ks) : (raised pk xs ks).length = xs.length :=
  Vec.length_broadcast _ hfit

theorem mem_raised {t : Triple} (ht : t ∈ raised pk xs ks) :
    t.1 ∈ xs ∧ t.2.1 ∈ ks ∧ t.2.2 = pk.nsquare := by
  obtain ⟨x, hx, k, hk, rfl⟩ := Vec.mem_broadcast ht
  exact ⟨hx, hk, rfl⟩

/-- The product of a single element. -/
theorem mulPT_one (ha : Of pk a) (hx : a.texts = [x]) :
    mulPT me a (BaseText.ofVec [k]) = (do
      let product ← me.one x k pk.nsquare
      pure (ofNumber pk product)) := by
  have hsize : a.size = 1 := by rw [ha.size_eq, hx]; rfl
  rw [mulPT, ha.pk_eq, hsize, hx]
  rfl

/-- The product of a vector. -/
theorem mulPT_vec (ha : Of pk a) (hfit : Fitting a.texts ks) (hlen : a.texts.length ≠ 1) :
    mulPT me a (BaseText.ofVec ks) = (do
      let product ← me.vec ((raised pk a.texts ks).map (·.1)) ((raised pk a.texts ks).map (·.2.1))
        ((raised pk a.texts ks).map (·.2.2))
      pure (ofVec pk product)) := by
  simp only [raised, Vec.map_broadcast]
  rw [Vec.broadcast_left (fun x => x) hfit, Vec.broadcast_left (fun _ => pk.nsquare) hfit,
    List.map_id', List.map_const']
  simp only [mulPT, BaseText.getSize, BaseText.ofVec, hfit.check, errorCheck_true, ha.pk_eq,
    deref_some, Result.bind_ok, ha.size_eq, BaseText.getTexts, beq_iff_eq]
  rw [if_neg hlen]
  by_cases hone : ks.length = 1
  · obtain ⟨k, rfl⟩ := List.length_eq_one_iff.mp hone
    rw [Vec.broadcast_singleton, List.map_const']
    simp only [BaseText.getElement, elemAt, List.length_singleton, Nat.zero_lt_one, decide_true,
      errorCheck_true, List.getElem?_cons_zero, Result.bind_ok, rawMulVec, if_true]
  · have hsame : ks.length = a.texts.length := hfit.resolve_right hone
    rw [if_neg hone, Vec.broadcast_right hsame]
    rfl

/-- The product when every power is returned. -/
theorem mulPT_eq (hme : me.OneExact) (ha : Of pk a) (hfit : Fitting a.texts ks)
    (hadm : ∀ x ∈ a.texts, ∀ k ∈ ks, Admissible x k pk.nsquare)
    (hs : a.texts.length ≠ 1 → me.Serves (raised pk a.texts ks)) :
    mulPT me a (BaseText.ofVec ks)
      = .ok (ofVec pk (Vec.broadcast (fun x k => powMod x k pk.nsquare) a.texts ks)) := by
  by_cases hone : a.texts.length = 1
  · obtain ⟨x, hx⟩ := List.length_eq_one_iff.mp hone
    obtain ⟨k, rfl⟩ : ∃ k, ks = [k] := List.length_eq_one_iff.mp (by
      rcases hfit with hfit | hfit <;> omega)
    rw [mulPT_one ha hx, hme.one_exact x k pk.nsquare (hadm x (by simp [hx]) k (by simp)), hx]
    rfl
  · rw [mulPT_vec ha hfit hone,
      show me.vec _ _ _ = .ok (powers (raised pk a.texts ks)) from hs hone,
      Result.bind_ok, raised, powers, Vec.map_broadcast]
    rfl

/-- The call that makes the product of a vector. -/
theorem product_call (hne : a.texts ≠ []) (hlen : a.texts.length < 2 ^ 31)
    (hfit : Fitting a.texts ks) (hadm : ∀ x ∈ a.texts, ∀ k ∈ ks, Admissible x k pk.nsquare) :
    ModExp.Call pk.nsquare (raised pk a.texts ks) where
  ne_nil := List.ne_nil_of_length_pos (by
    rw [length_raised hfit]
    exact List.length_pos_iff.mpr hne)
  length_lt := by rwa [length_raised hfit]
  modulus t ht := (mem_raised ht).2.2
  admissible t ht := by
    obtain ⟨hx, hk, hm⟩ := mem_raised ht
    rw [hm]
    exact hadm _ hx _ hk

end

end Ipcl.CipherText
