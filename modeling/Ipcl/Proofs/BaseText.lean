/-
The stored size of a text.

Every operation that changes the vector changes the stored size by as much, so a text
whose size is right keeps it right.  Two ways of making a text do not establish it: the
default constructor stores nothing, and reading an archive stores what the archive says.
A third way to lose it is the sum in `remove`, which wraps.

The objects of a program form a store.  In a run that avoids the three, every object of
every store reached has the right size, and then the guards of the accesses are the
bounds of the vector.
-/
import Ipcl.BaseText
import Ipcl.Lib.Transition
import Ipcl.Proofs.Archive

namespace Ipcl.BaseText

/-! ### One object -/

section
variable {t t' : BaseText}

theorem errorCheck_bind_ok {α : Type} {e : Bool} {msg : String} {f : Unit → Result α} {a : α}
    (h : (errorCheck e msg >>= f) = .ok a) : e = true ∧ f () = .ok a := by
  cases e with
  | false => cases h
  | true => exact ⟨rfl, h⟩

theorem range_ok {xs ys : List ℤ} {i j : ℕ} (h : range xs i j = .ok ys) :
    i ≤ j ∧ j ≤ xs.length ∧ ys = (xs.drop i).take (j - i) := by
  unfold range at h
  by_cases hij : i ≤ j ∧ j ≤ xs.length
  · rw [if_pos hij] at h
    exact ⟨hij.1, hij.2, (Except.ok.inj h).symm⟩
  · rw [if_neg hij] at h
    cases h

theorem wf_ofVec (bnV : List ℤ) : (ofVec bnV).WF := rfl

theorem wf_ofNumber (bn : ℤ) : (ofNumber bn).WF := rfl

theorem wf_ofUInt32 (n : UInt32) : (ofUInt32 n).WF := rfl

theorem wf_ofUInt32s (nV : List UInt32) : (ofUInt32s nV).WF := rfl

theorem wf_fresh_iff (held : ℕ) : (fresh held).WF ↔ held = 0 := Iff.rfl

theorem WF.copy (h : t.WF) : t.copy.WF := h

theorem WF.assign (h : t'.WF) : (t.assign t').WF := h

theorem wf_clear : t.clear.WF := rfl

theorem WF.write (h : t.WF) {idx : ℕ} {bn : ℤ} (hw : t.write idx bn = .ok t') : t'.WF := by
  obtain ⟨x, -, hw⟩ := Result.of_bind_ok hw
  rw [← Except.ok.inj hw]
  unfold WF
  rw [List.length_set]
  exact h

theorem WF.insert (h : t.WF) {pos : ℕ} {bn : ℤ} (hi : t.insert pos bn = .ok t') : t'.WF := by
  obtain ⟨hpos, -⟩ := errorCheck_bind_ok hi
  have hle : pos ≤ t.texts.length := by
    rw [← h]
    exact of_decide_eq_true hpos
  rw [insert_eq h hle] at hi
  rw [← Except.ok.inj hi]
  unfold WF
  simp only [List.length_append, List.length_take, List.length_cons, List.length_drop]
  rw [h]
  omega

theorem WF.remove (h : t.WF) {pos length : UInt64} (hr : t.remove pos length = .ok t') :
    t'.WF := by
  obtain ⟨-, hr⟩ := errorCheck_bind_ok hr
  obtain ⟨ys, hys, hr⟩ := Result.of_bind_ok hr
  obtain ⟨-, hle, -⟩ := range_ok hys
  rw [← Except.ok.inj hr]
  unfold WF
  simp only [List.length_append, List.length_take, List.length_drop]
  rw [h]
  omega

/-! ### Accesses -/

theorem defined_errorCheck_bind {α : Type} {e : Bool} {msg : String} {f : Unit → Result α}
    (hf : e = true → Defined (f ())) : Defined (errorCheck e msg >>= f) := by
  cases e with
  | false =>
      intro what h
      cases h
  | true => exact hf rfl

theorem defined_elemAt_bind {α : Type} {idx : ℕ} (hidx : idx < t.texts.length)
    (f : ℤ → α) : Defined (elemAt t.texts idx >>= fun x => pure (f x)) := by
  rw [elemAt_eq hidx]
  exact defined_ok _

/-- Every access a guard lets through is inside the vector.  Where two sizes are added the
sum must not wrap around to one that the guard accepts. -/
structure Guarded (t : BaseText) : Prop where
  index : ∀ idx, Defined (t.index idx)
  write : ∀ idx bn, Defined (t.write idx bn)
  getElement : ∀ idx, Defined (t.getElement idx)
  getElementVec : ∀ idx, Defined (t.getElementVec idx)
  getElementHex : ∀ idx, Defined (t.getElementHex idx)
  insert : ∀ pos bn, Defined (t.insert pos bn)
  remove : ∀ pos length : UInt64, pos.toNat + length.toNat < 2 ^ 64 ∨
    t.size ≤ (pos + length).toNat → Defined (t.remove pos length)
  getChunk : ∀ start size : UInt64, start.toNat + size.toNat < 2 ^ 64 ∨
    t.size < (start + size).toNat → Defined (t.getChunk start size)

theorem WF.lt_length (h : t.WF) {idx : ℕ} (hidx : decide (idx < t.size) = true) :
    idx < t.texts.length := by
  rw [← h]
  exact of_decide_eq_true hidx

theorem WF.guarded (h : t.WF) : Guarded t where
  index idx := defined_errorCheck_bind fun hidx => by
    rw [elemAt_eq (h.lt_length hidx)]
    exact defined_ok _
  write idx bn := by
    unfold BaseText.write
    by_cases hidx : idx < t.texts.length
    · rw [index_eq h hidx]
      exact defined_ok _
    · have hcheck : decide (idx < t.size) = false := by
        rw [h]
        exact decide_eq_false hidx
      rw [BaseText.index, hcheck]
      intro what hc
      cases hc
  getElement idx := defined_errorCheck_bind fun hidx => by
    rw [elemAt_eq (h.lt_length hidx)]
    exact defined_ok _
  getElementVec idx := defined_errorCheck_bind fun hidx =>
    defined_elemAt_bind (h.lt_length hidx) _
  getElementHex idx := defined_errorCheck_bind fun hidx =>
    defined_elemAt_bind (h.lt_length hidx) _
  insert pos bn := by
    by_cases hpos : pos ≤ t.texts.length
    · rw [insert_eq h hpos]
      exact defined_ok _
    · have hcheck : decide (pos ≤ t.size) = false := by
        rw [h]
        exact decide_eq_false hpos
      rw [BaseText.insert, hcheck]
      intro what hc
      cases hc
  remove pos length hsum := defined_errorCheck_bind fun hcheck => by
    have hlt : (pos + length).toNat < t.size := of_decide_eq_true hcheck
    have hnowrap : pos.toNat + length.toNat < 2 ^ 64 := by
      rcases hsum with hsum | hsum
      · exact hsum
      · exact absurd hsum (by omega)
    rw [toNat_add_of_lt hnowrap, h] at hlt
    rw [range_eq (Nat.le_add_right _ _) (Nat.le_of_lt hlt)]
    exact defined_ok _
  getChunk start size hsum := defined_errorCheck_bind fun hcheck => by
    have hle : (start + size).toNat ≤ t.size := of_decide_eq_true hcheck
    have hnowrap : start.toNat + size.toNat < 2 ^ 64 := by
      rcases hsum with hsum | hsum
      · exact hsum
      · exact absurd hsum (by omega)
    rw [toNat_add_of_lt hnowrap, h] at hle
    rw [range_eq (Nat.le_add_right _ _) hle]
    exact defined_ok _

end

/-! ### All objects of a program -/

/-- The objects, by name. -/
abbrev Store (ι : Type) := ι → Option BaseText

inductive Action (ι : Type) where
  | fresh (i : ι) (held : ℕ)
  | ofUInt32 (i : ι) (n : UInt32)
  | ofUInt32s (i : ι) (nV : List UInt32)
  | ofNumber (i : ι) (bn : ℤ)
  | ofVec (i : ι) (bnV : List ℤ)
  /-- A new object `i` is a copy of `j`. -/
  | copy (i j : ι)
  /-- `j` is assigned to `i`. -/
  | assign (i j : ι)
  | insert (i : ι) (pos : ℕ) (bn : ℤ)
  | remove (i : ι) (pos length : UInt64)
  | clear (i : ι)
  | write (i : ι) (idx : ℕ) (bn : ℤ)
  /-- An archive is read into `i`. -/
  | load (i : ι) (ar : Archive)

variable {ι : Type} [DecidableEq ι]

/-- An operation on the object `i`, which leaves it alone when it fails. -/
def change (s : Store ι) (i : ι) (f : BaseText → Result BaseText) : Option (Store ι) := do
  let t ← s i
  let t' ← (f t).toOption
  some (Function.update s i (some t'))

/-- What is made of an archive that is accepted. -/
def loaded (ar : Archive) (t : BaseText) : Result BaseText :=
  (Load.exec load ar t).1.map fun _ => (Load.exec load ar t).2

def step (s : Store ι) : Action ι → Option (Store ι)
  | .fresh i held => some (Function.update s i (some (BaseText.fresh held)))
  | .ofUInt32 i n => some (Function.update s i (some (BaseText.ofUInt32 n)))
  | .ofUInt32s i nV => some (Function.update s i (some (BaseText.ofUInt32s nV)))
  | .ofNumber i bn => some (Function.update s i (some (BaseText.ofNumber bn)))
  | .ofVec i bnV => some (Function.update s i (some (BaseText.ofVec bnV)))
  | .copy i j => (s j).map fun t => Function.update s i (some t.copy)
  | .assign i j => (s j).bind fun other => change s i fun t => .ok (t.assign other)
  | .insert i pos bn => change s i fun t => t.insert pos bn
  | .remove i pos length => change s i fun t => t.remove pos length
  | .clear i => change s i fun t => .ok t.clear
  | .write i idx bn => change s i fun t => t.write idx bn
  | .load i ar => change s i (loaded ar)

def system (ι : Type) [DecidableEq ι] : TransitionSystem (Store ι) (Action ι) where
  init s := s = fun _ => none
  step := step

/-- Every object has the right size. -/
def AllWF (s : Store ι) : Prop := ∀ i t, s i = some t → t.WF

theorem AllWF.update {s : Store ι} (h : AllWF s) {t : BaseText} (ht : t.WF) (i : ι) :
    AllWF (Function.update s i (some t)) := by
  intro j u hj
  by_cases hji : j = i
  · subst hji
    rw [Function.update_self] at hj
    cases hj
    exact ht
  · rw [Function.update_of_ne hji] at hj
    exact h j u hj

theorem AllWF.change {s s' : Store ι} (h : AllWF s) {i : ι} {f : BaseText → Result BaseText}
    (hs : change s i f = some s') (hf : ∀ t t', t.WF → f t = .ok t' → t'.WF) : AllWF s' := by
  unfold BaseText.change at hs
  cases ht : s i with
  | none =>
      rw [ht] at hs
      cases hs
  | some t =>
      rw [ht] at hs
      cases hft : f t with
      | error e =>
          simp [hft, Except.toOption] at hs
      | ok t' =>
          simp only [hft, Except.toOption, Option.bind_eq_bind, Option.bind_some,
            Option.some.injEq] at hs
          rw [← hs]
          exact h.update (hf t t' (h i t ht) hft) i

/-- A default-constructed object happens to hold zero, and an archive gives the number of
its elements as the size. -/
def Careful (_s : Store ι) : Action ι → Prop
  | .fresh _ held => held = 0
  | .load _ ar => ∃ es rest, ar = textItems es.length es ++ rest
  | _ => True

theorem wf_loaded {es : List (List ℕ × Bool)} {rest : Archive} {t t' : BaseText}
    (h : loaded (textItems es.length es ++ rest) t = .ok t') : t'.WF := by
  unfold loaded Load.exec at h
  by_cases hes : ∀ e ∈ es, HasWords e
  · rw [load_textItems _ hes] at h
    rw [← Except.ok.inj h]
    unfold WF
    rw [List.length_map]
  · obtain ⟨e, he⟩ := not_forall.mp hes
    obtain ⟨hmem, hnone⟩ := Classical.not_imp.mp he
    have hload := load_textItems_none es.length ⟨e, hmem, hnone⟩ rest t
    simp only [hload] at h
    cases h

theorem AllWF.step {s s' : Store ι} {a : Action ι} (h : AllWF s) (hok : Careful s a)
    (hs : step s a = some s') : AllWF s' := by
  cases a with
  | fresh i held =>
      cases hs
      exact h.update ((wf_fresh_iff held).mpr hok) i
  | ofUInt32 i n =>
      cases hs
      exact h.update (wf_ofUInt32 n) i
  | ofUInt32s i nV =>
      cases hs
      exact h.update (wf_ofUInt32s nV) i
  | ofNumber i bn =>
      cases hs
      exact h.update (wf_ofNumber bn) i
  | ofVec i bnV =>
      cases hs
      exact h.update (wf_ofVec bnV) i
  | copy i j =>
      obtain ⟨t, ht, rfl⟩ := Option.map_eq_some_iff.mp hs
      exact h.update (h j t ht).copy i
  | assign i j =>
      obtain ⟨other, hother, hs⟩ := Option.bind_eq_some_iff.mp hs
      refine h.change hs fun t t' _ hf => ?_
      cases hf
      exact (h j other hother).assign
  | insert i pos bn => exact h.change hs fun _ _ ht hf => ht.insert hf
  | remove i pos length => exact h.change hs fun _ _ ht hf => ht.remove hf
  | clear i =>
      refine h.change hs fun t t' _ hf => ?_
      cases hf
      exact wf_clear
  | write i idx bn => exact h.change hs fun _ _ ht hf => ht.write hf
  | load i ar =>
      obtain ⟨es, rest, rfl⟩ := hok
      exact h.change hs fun _ _ _ hf => wf_loaded hf

/-- **In a run that neither relies on an unset size nor reads one from a stream that does
not match, every object has the right size and its guards are the bounds of its vector.** -/
theorem size_law {s : Store ι} (h : (system ι).ReachableIf Careful s) {i : ι} {t : BaseText}
    (ht : s i = some t) : t.size = t.texts.length ∧ Guarded t := by
  have hall : AllWF s := by
    refine h.invariant (I := AllWF) ?_ fun _ _ _ hI hok hs => hI.step hok hs
    rintro s rfl i t ht
    cases ht
  exact ⟨hall i t ht, (hall i t ht).guarded⟩

/-- An object is read from an archive, copied and changed. -/
theorem size_law_two : ∃ s : Store ℕ, (system ℕ).run (fun _ => none)
    [.fresh 0 0, .load 0 [.size 1, .size 1, .words [7], .sign false], .copy 1 0, .insert 1 0 5,
      .remove 1 0 1] = some s ∧ ∀ i t, s i = some t → t.size = t.texts.length ∧ Guarded t := by
  obtain ⟨s, hs⟩ : ∃ s, (system ℕ).run (fun _ => none) [.fresh 0 0,
      .load 0 [.size 1, .size 1, .words [7], .sign false], .copy 1 0, .insert 1 0 5,
      .remove 1 0 1] = some s := Option.isSome_iff_exists.mp (by decide +kernel)
  refine ⟨s, hs, fun i t ht => size_law (.run (.init rfl) ?_ hs) ht⟩
  intro u a ha
  simp only [List.mem_cons, List.not_mem_nil, or_false] at ha
  rcases ha with rfl | rfl | rfl | rfl | rfl
  · rfl
  · exact ⟨[([7], false)], [], rfl⟩
  · trivial
  · trivial
  · trivial

/-- An archive that gives the size 1 and no element. -/
theorem size_broken_by_load : ∃ s : Store ℕ, (system ℕ).run (fun _ => none)
    [.fresh 0 0, .load 0 [.size 1, .size 0]] = some s ∧ ∃ t, s 0 = some t ∧
      t.size ≠ t.texts.length ∧ ¬ Defined (t.getElement 0) := by
  refine ⟨_, rfl, ⟨[], 1⟩, rfl, by decide, fun h => h _ rfl⟩

end Ipcl.BaseText
