/-
Ranges of a text.

`remove` and `getChunk` are given a position and a length and compare their sum with the
size.  The sum is a `std::size_t` and wraps around, so that of a long range can be small:
the guard lets it through, and the iterator at its end is beyond the vector.  The guard of
`remove` also leaves out the ranges that end with the text.  Everywhere else the two do
what their names say, and so does `insert`, which adds nothing.
-/
import Ipcl.Proofs.BaseText

namespace Ipcl.BaseText

variable {t : BaseText} {pos length start size : UInt64}

/-- What the operations on ranges should do with a text: what the operations on its list do
where the range is inside, and throw where it is not.  A call that throws gives no text, so
the one there was stays. -/
structure ListLike (t : BaseText) (pos length start size : UInt64) (idx : ℕ) (bn : ℤ) : Prop where
  remove : pos.toNat + length.toNat ≤ t.texts.length → t.remove pos length
    = .ok (ofVec (t.texts.take pos.toNat ++ t.texts.drop (pos.toNat + length.toNat)))
  remove_out : t.texts.length < pos.toNat + length.toNat → Throws (t.remove pos length)
  getChunk : start.toNat + size.toNat ≤ t.texts.length → t.getChunk start size
    = .ok ((t.texts.drop start.toNat).take size.toNat)
  getChunk_out : t.texts.length < start.toNat + size.toNat → Throws (t.getChunk start size)
  insert : idx ≤ t.texts.length →
    t.insert idx bn = .ok (ofVec (t.texts.take idx ++ bn :: t.texts.drop idx))
  insert_out : t.texts.length < idx → Throws (t.insert idx bn)

/-- The range to remove does not end with the text, and a sum that wraps around is not
brought back into the text. -/
structure RangesFit (t : BaseText) (pos length start size : UInt64) : Prop where
  remove_end : pos.toNat + length.toNat ≠ t.size
  remove_wrap : 2 ^ 64 ≤ pos.toNat + length.toNat → t.size ≤ pos.toNat + length.toNat - 2 ^ 64
  getChunk_wrap : 2 ^ 64 ≤ start.toNat + size.toNat → t.size < start.toNat + size.toNat - 2 ^ 64

/-! ### The guards -/

/-- A sum of two positions wraps around once at most. -/
theorem toNat_add_of_le {a b : UInt64} (h : 2 ^ 64 ≤ a.toNat + b.toNat) :
    (a + b).toNat = a.toNat + b.toNat - 2 ^ 64 := by
  have ha := a.toNat_lt
  have hb := b.toNat_lt
  rw [UInt64.toNat_add]
  omega

theorem range_undefined {xs : List ℤ} {i j : ℕ} (h : xs.length < j) :
    range xs i j = .error (.undefined "iterator range outside a vector") :=
  if_neg fun hij => absurd hij.2 (by omega)

theorem remove_throws (h : t.size ≤ (pos + length).toNat) : Throws (t.remove pos length) := by
  refine ⟨"BaseText: remove position is out of range", ?_⟩
  unfold BaseText.remove
  rw [decide_eq_false (by omega)]
  rfl

theorem getChunk_throws (h : t.size < (start + size).toNat) : Throws (t.getChunk start size) := by
  refine ⟨"BaseText: getChunk parameter is incorrect", ?_⟩
  unfold BaseText.getChunk
  rw [decide_eq_false (by omega)]
  rfl

theorem insert_throws {idx : ℕ} (h : t.size < idx) (bn : ℤ) : Throws (t.insert idx bn) := by
  refine ⟨"BaseText: insert position is out of range", ?_⟩
  unfold BaseText.insert
  rw [decide_eq_false (by omega)]
  rfl

/-- A sum that is brought back into the text takes the end of the range out of the vector. -/
theorem remove_undefined (hlt : (pos + length).toNat < t.size)
    (hout : t.texts.length < pos.toNat + length.toNat) :
    t.remove pos length = .error (.undefined "iterator range outside a vector") := by
  unfold BaseText.remove
  rw [decide_eq_true hlt, range_undefined hout]
  rfl

theorem getChunk_undefined (hle : (start + size).toNat ≤ t.size)
    (hout : t.texts.length < start.toNat + size.toNat) :
    t.getChunk start size = .error (.undefined "iterator range outside a vector") := by
  unfold BaseText.getChunk
  rw [decide_eq_true hle, range_undefined hout]
  rfl

/-! ### The operations -/

section
variable (h : t.WF)
include h

theorem remove_fits (hsize : t.size < 2 ^ 64) (hend : pos.toNat + length.toNat ≠ t.size)
    (hin : pos.toNat + length.toNat ≤ t.texts.length) : t.remove pos length
      = .ok (ofVec (t.texts.take pos.toNat ++ t.texts.drop (pos.toNat + length.toNat))) := by
  rw [h] at hend hsize
  have hlt := Nat.lt_of_le_of_ne hin hend
  rw [remove_eq h (Nat.lt_trans hlt hsize) hlt]
  congr 1
  simp only [ofVec, mk.injEq, true_and, List.length_append, List.length_take, List.length_drop]
  rw [h]
  omega

/-- A range to remove that is not inside throws, unless its sum is brought back. -/
theorem remove_throws_iff (hout : t.texts.length < pos.toNat + length.toNat) :
    Throws (t.remove pos length) ↔
      (2 ^ 64 ≤ pos.toNat + length.toNat → t.size ≤ pos.toNat + length.toNat - 2 ^ 64) := by
  constructor
  · intro hthrows hwrap
    by_contra hback
    rw [← toNat_add_of_le hwrap, Nat.not_le] at hback
    rw [remove_undefined hback hout] at hthrows
    exact not_throws_undefined hthrows
  · intro hback
    apply remove_throws
    rw [← h] at hout
    rcases Nat.lt_or_ge (pos.toNat + length.toNat) (2 ^ 64) with hno | hwrap
    · rw [toNat_add_of_lt hno]
      exact hout.le
    · rw [toNat_add_of_le hwrap]
      exact hback hwrap

theorem getChunk_throws_iff (hout : t.texts.length < start.toNat + size.toNat) :
    Throws (t.getChunk start size) ↔
      (2 ^ 64 ≤ start.toNat + size.toNat → t.size < start.toNat + size.toNat - 2 ^ 64) := by
  constructor
  · intro hthrows hwrap
    by_contra hback
    rw [← toNat_add_of_le hwrap, Nat.not_lt] at hback
    rw [getChunk_undefined hback hout] at hthrows
    exact not_throws_undefined hthrows
  · intro hback
    apply getChunk_throws
    rw [← h] at hout
    rcases Nat.lt_or_ge (start.toNat + size.toNat) (2 ^ 64) with hno | hwrap
    · rw [toNat_add_of_lt hno]
      exact hout
    · rw [toNat_add_of_le hwrap]
      exact hback hwrap

/-- **The operations on ranges are those of a list exactly when the range to remove does not end
with the text and no sum that wraps around is brought back into it.** -/
theorem listLike_iff (hsize : t.size < 2 ^ 64) (idx : ℕ) (bn : ℤ) :
    ListLike t pos length start size idx bn ↔ RangesFit t pos length start size := by
  have hlen : t.texts.length < 2 ^ 64 := by rwa [← h]
  constructor
  · intro hlist
    refine ⟨fun hend => ?_, fun hwrap => ?_, fun hwrap => ?_⟩
    · -- the range that ends with the text is refused
      have hok := hlist.remove (hend.trans h).le
      have hthrows : Throws (t.remove pos length) := by
        apply remove_throws
        rw [toNat_add_of_lt (by omega)]
        exact hend.ge
      rw [hok] at hthrows
      exact not_throws_ok hthrows
    · have hout : t.texts.length < pos.toNat + length.toNat := by omega
      exact (remove_throws_iff h hout).mp (hlist.remove_out hout) hwrap
    · have hout : t.texts.length < start.toNat + size.toNat := by omega
      exact (getChunk_throws_iff h hout).mp (hlist.getChunk_out hout) hwrap
  · intro hfit
    refine ⟨remove_fits h hsize hfit.remove_end, fun hout => ?_, fun hin => ?_, fun hout => ?_,
      fun hin => ?_, fun hout => ?_⟩
    · exact (remove_throws_iff h hout).mpr hfit.remove_wrap
    · exact getChunk_eq h (Nat.lt_of_le_of_lt hin hlen) hin
    · exact (getChunk_throws_iff h hout).mpr hfit.getChunk_wrap
    · rw [insert_eq h hin]
      congr 1
      simp only [ofVec, mk.injEq, true_and, List.length_append, List.length_take,
        List.length_cons, List.length_drop]
      rw [h]
      omega
    · exact insert_throws (by rwa [h]) bn

end

/-- Three elements: the first is removed and the last two are read. -/
theorem listLike_three : ListLike (ofVec [1, 2, 3]) 0 1 1 2 3 4 :=
  (listLike_iff (wf_ofVec _) (by decide) 3 4).mpr ⟨by decide, by decide, by decide⟩

/-- The last of two elements is not removed, and neither a removal nor a chunk of `2 ^ 64 - 1`
elements from the second one is refused. -/
theorem not_listLike_last : ¬ ListLike (ofVec [1, 2]) 1 1 0 0 0 0 ∧
    ¬ ListLike (ofVec [1, 2]) 1 0xFFFFFFFFFFFFFFFF 0 0 0 0 ∧
    ¬ ListLike (ofVec [1, 2]) 0 0 1 0xFFFFFFFFFFFFFFFF 0 0 := by
  refine ⟨fun hlist => ?_, fun hlist => ?_, fun hlist => ?_⟩
  · have hok := hlist.remove (by decide +kernel)
    have hthrows : (ofVec [1, 2]).remove 1 1
        = .error (.runtime "BaseText: remove position is out of range") := rfl
    rw [hthrows] at hok
    cases hok
  · obtain ⟨msg, hmsg⟩ := hlist.remove_out (by decide +kernel)
    rw [remove_undefined (by decide +kernel) (by decide +kernel)] at hmsg
    cases hmsg
  · obtain ⟨msg, hmsg⟩ := hlist.getChunk_out (by decide +kernel)
    rw [getChunk_undefined (by decide +kernel) (by decide +kernel)] at hmsg
    cases hmsg

end Ipcl.BaseText
