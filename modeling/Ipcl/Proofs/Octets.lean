/-
Numbers as octet strings, there and back.

`toBin` stores as many bytes as the words of the number have, whatever the length it is
given, and `fromBin` writes as many bytes as the length, whatever room the number has.
So the first stays inside a buffer exactly for the numbers that have no more words than
the buffer, and the second exactly for the strings whose number in the wrong order keeps
all its digits.

On the way to the device the length comes from the first modulus alone, and every other
operand is written into buffers of that length.
-/
import Ipcl.Proofs.Refusals

namespace Ipcl

open BigNumber

/-! ### The round trip -/

/-- A number written into a cleared buffer of `len` bytes is read back from it. -/
def RoundTrips (len v : ℕ) : Prop :=
  ∃ data, toBin (List.replicate len 0) len v = .ok (true, data) ∧
    fromBin data len = .ok (some (v : ℤ))

/-- The words of a number that is less than a power of two. -/
theorem bitsizeWord_bitLen_le {w v : ℕ} (hw : 0 < w) (hv : v < 2 ^ (32 * w)) :
    bitsizeWord (bitLen v) ≤ w := by
  have hlog : v.log2 < 32 * w := by
    by_cases hzero : v = 0
    · rw [hzero, show Nat.log2 0 = 0 by decide]
      omega
    · exact (Nat.log2_lt hzero).mpr hv
  unfold bitsizeWord bitLen
  rw [Int.natAbs_natCast]
  omega

/-- **A number comes back exactly when its string has at most eight bytes, or lowest ones
that are not all zero.** -/
theorem octets_round_trip_iff {len v : ℕ} (hlen : 0 < len) (hdvd : 4 ∣ len)
    (hv : v < 2 ^ (8 * len)) : RoundTrips len v ↔ Readable (len / 4) v := by
  obtain ⟨w, rfl⟩ := hdvd
  have hw : 0 < w := by omega
  have hwords : bitsizeWord (bitLen v) ≤ w := by
    refine bitsizeWord_bitLen_le hw ?_
    rwa [show 32 * w = 8 * (4 * w) by ring]
  have hbytes : v < 256 ^ (4 * w) := by
    rwa [pow_octets]
  have hwrite : toBin (List.replicate (4 * w) 0) (4 * w : ℕ) v = .ok (true, octets (4 * w) v) :=
    toBin_eq hlen (by omega)
  have hread := fromBin_octets hw hbytes
  rw [Nat.mul_div_cancel_left w (by decide)]
  constructor
  · intro htrip
    obtain ⟨data, hdata, hback⟩ := htrip
    rw [hwrite] at hdata
    cases hdata
    by_contra hnot
    rw [hread, if_neg hnot] at hback
    cases hback
  · intro hreadable
    exact ⟨_, hwrite, by rw [hread, if_pos hreadable]⟩

/-- The number one in sixteen bytes. -/
theorem octets_round_trip_one : RoundTrips 16 1 :=
  (octets_round_trip_iff (by decide) (by decide) (by decide)).mpr (by decide)

/-- Zero in sixteen bytes, and the least number whose lowest digit is zero. -/
theorem not_octets_round_trip : ¬ RoundTrips 16 0 ∧ ¬ RoundTrips 16 (2 ^ 64) := by
  have hwrong : ∀ v : ℕ, fromBin (octets 16 v) 16 = .error (.undefined
      "write past the digits of a number") →
      toBin (List.replicate 16 0) 16 v = .ok (true, octets 16 v) → ¬ RoundTrips 16 v := by
    intro v hread hwrite htrip
    obtain ⟨data, hdata, hback⟩ := htrip
    have hsame : data = octets 16 v := by
      have hpair := Except.ok.inj (hdata.symm.trans hwrite)
      exact (Prod.mk.inj hpair).2
    rw [hsame] at hback
    cases hread.symm.trans hback
  exact ⟨hwrong 0 (by decide +kernel) (by decide +kernel),
    hwrong (2 ^ 64) (by decide +kernel) (by decide +kernel)⟩

/-! ### The operands of the device -/

namespace Engines

variable (en : Engines)

/-- The length of the buffers of a batch. -/
def slotLength (front : ℤ) : ℕ := bitsizeWord (bitSize en.ipp front).toNat * 4

/-- A number is written inside a cleared buffer, as its octet string, or not at all. -/
def Converts (length : ℕ) (x : ℤ) : Prop :=
  ∃ ret data, toBin (List.replicate length 0) length x = .ok (ret, data) ∧
    (ret = true → data = octets length x.natAbs)

/-- No operand is stored outside its buffer. -/
structure StoresInside (base exponent modulus : List ℤ) (front : ℤ) : Prop where
  converts : ∀ x ∈ base ++ exponent ++ modulus, Converts (en.slotLength front) x
  inside : ∀ batchSize, en.heQatBnModExp_MT base exponent modulus batchSize
    ≠ .error (.undefined "store outside the buffer")

variable {en}

theorem slotLength_eq (h : en.ipp.Lawful) (front : ℤ) :
    en.slotLength front = bitsizeWord (bitLen front) * 4 := by
  unfold slotLength
  by_cases hzero : front = 0
  · subst hzero
    have hbits : bitSize en.ipp 0 = 1 := by
      rw [bitSize, msb, eq_zero h, if_pos (by decide)]
      rfl
    rw [hbits]
    decide
  · rw [bitSize_eq h hzero, Int.toNat_natCast]

theorem converts_iff {length : ℕ} (hlen : 0 < length) (x : ℤ) :
    Converts length x ↔ bitsizeWord (bitLen x) * 4 ≤ length := by
  constructor
  · intro hconv
    obtain ⟨ret, data, hok, -⟩ := hconv
    have hret : ret = true := by
      rw [toBin, if_neg (by omega)] at hok
      obtain ⟨stored, -, hpair⟩ := Result.of_bind_ok hok
      cases hpair
      rfl
    rw [hret] at hok
    exact words_of_toBin hok
  · intro hfit
    exact ⟨true, _, toBin_eq hlen hfit, fun _ => rfl⟩

/-- The store that has no meaning. -/
def Outside {α : Type} (r : Result α) : Prop :=
  r = .error (.undefined "store outside the buffer")

theorem Outside.of_bind {α β : Type} {r : Result α} {f : α → Result β} (h : Outside (r >>= f)) :
    Outside r ∨ ∃ a, r = .ok a ∧ Outside (f a) := Result.of_bind_error h

theorem not_outside_elemAt (xs : List ℤ) (i : ℕ) : ¬ Outside (elemAt xs i) := by
  unfold elemAt Outside
  cases xs[i]? with
  | some x => exact nofun
  | none => simp

theorem not_outside_operand {length : ℕ} {x : ℤ} (hlen : 0 < length)
    (hfit : bitsizeWord (bitLen x) * 4 ≤ length) (msg : String) :
    ¬ Outside (operand length x msg) := by
  unfold operand Outside
  rw [toBin_eq hlen hfit]
  exact nofun

/-- A request is written inside its buffers when its operands have no more words. -/
theorem not_outside_request {length : ℕ} {base exponent modulus : List ℤ} (hlen : 0 < length)
    (hfit : ∀ x ∈ base ++ exponent ++ modulus, bitsizeWord (bitLen x) * 4 ≤ length) (i : ℕ) :
    ¬ Outside (en.request length base exponent modulus i) := by
  have hmem : ∀ {xs : List ℤ} {x : ℤ}, elemAt xs i = .ok x → xs ⊆ base ++ exponent ++ modulus →
      bitsizeWord (bitLen x) * 4 ≤ length := fun hx hsub => hfit _ (hsub (mem_of_elemAt hx))
  intro hout
  obtain ⟨b, hb, hout⟩ := hout.of_bind.resolve_left (not_outside_elemAt _ _)
  have hbfit := hmem hb fun x hx => by simp [hx]
  obtain ⟨_, -, hout⟩ := hout.of_bind.resolve_left (not_outside_operand hlen hbfit _)
  obtain ⟨e, he, hout⟩ := hout.of_bind.resolve_left (not_outside_elemAt _ _)
  have hefit := hmem he fun x hx => by simp [hx]
  obtain ⟨_, -, hout⟩ := hout.of_bind.resolve_left (not_outside_operand hlen hefit _)
  obtain ⟨m, hm, hout⟩ := hout.of_bind.resolve_left (not_outside_elemAt _ _)
  have hmfit := hmem hm fun x hx => by simp [hx]
  obtain ⟨_, -, hout⟩ := hout.of_bind.resolve_left (not_outside_operand hlen hmfit _)
  cases hout

/-- Reading a result stores nothing in a buffer. -/
theorem not_outside_collect (length : ℕ) (msg : String) (rem : List ℤ) (i : ℕ) (out : List ℕ) :
    ¬ Outside (collect length msg rem i out) := by
  intro hout
  rcases hout.of_bind with hread | ⟨bn, -, hrest⟩
  · unfold fromBin Outside at hread
    simp only at hread
    split_ifs at hread <;> simp at hread
  · cases bn with
    | none => cases hrest
    | some x =>
        change Outside (setAt rem i x) at hrest
        unfold setAt Outside at hrest
        split_ifs at hrest
        simp at hrest

/-- **The operands stay inside their buffers exactly when none of them has more words than
the first modulus.** -/
theorem stores_inside_iff (h : en.ipp.Lawful) (base exponent : List ℤ) (front : ℤ)
    (rest : List ℤ) :
    StoresInside en base exponent (front :: rest) front ↔
      ∀ x ∈ base ++ exponent ++ front :: rest,
        bitsizeWord (bitLen x) ≤ bitsizeWord (bitLen front) := by
  have hwords : 0 < bitsizeWord (bitLen front) := by
    have := bitLen_pos front
    unfold bitsizeWord
    omega
  have hlen := slotLength_eq h front
  have hconv : ∀ x, Converts (en.slotLength front) x ↔
      bitsizeWord (bitLen x) ≤ bitsizeWord (bitLen front) := by
    intro x
    rw [converts_iff (by omega), hlen]
    omega
  constructor
  · intro hstores x hx
    exact (hconv x).mp (hstores.converts x hx)
  · intro hfit
    refine ⟨fun x hx => (hconv x).mpr (hfit x hx), fun batchSize hout => ?_⟩
    have hfit' : ∀ x ∈ base ++ exponent ++ front :: rest,
        bitsizeWord (bitLen x) * 4 ≤ en.slotLength front := fun x hx => by
      have := hfit x hx
      omega
    change Outside (if batchSize = 0 then _ else _) at hout
    by_cases hzero : batchSize = 0
    · rw [if_pos hzero] at hout
      simp [Outside] at hout
    rw [if_neg hzero] at hout
    rcases hout.of_bind with hloop | ⟨_, -, hslices⟩
    · unfold intLoop Outside at hloop
      split_ifs at hloop
      simp at hloop
    obtain ⟨s, hs, rem, hslice⟩ := Vec.foldlM_error_mem hslices
    rcases Result.of_bind_error hslice with houts | ⟨outs, -, hcollect⟩
    · obtain ⟨i, -, hreq⟩ := Vec.mapM_error_mem houts
      exact not_outside_request (by omega) hfit' i hreq
    split_ifs at hcollect
    · rw [overlong_slicesMT hs] at hcollect
      cases hcollect
    · obtain ⟨out, -, rem', hread⟩ := Vec.foldlM_error_mem hcollect
      exact not_outside_collect _ _ _ _ _ hread

/-- Operands of one word each. -/
theorem stores_inside_one_word : StoresInside Engines.reference [3, 2] [5, 0] [7, 9] 7 :=
  (stores_inside_iff Ipp.reference_lawful [3, 2] [5, 0] 7 [9]).mpr (by decide)

/-- An exponent with one word more than the modulus: its fifth byte is stored at index -1. -/
theorem not_stores_inside_exponent :
    ¬ StoresInside Engines.reference [3] [2 ^ 32] [7] 7 ∧
      toBin (List.replicate (Engines.reference.slotLength 7) 0) (Engines.reference.slotLength 7)
        (2 ^ 32) = .error (.undefined "store outside the buffer") := by
  have hstore : toBin (List.replicate (Engines.reference.slotLength 7) 0)
      (Engines.reference.slotLength 7) (2 ^ 32)
      = .error (.undefined "store outside the buffer") := by decide +kernel
  refine ⟨fun hstores => ?_, hstore⟩
  obtain ⟨ret, data, hok, -⟩ := hstores.converts (2 ^ 32) (by simp)
  rw [hstore] at hok
  cases hok

end Engines

end Ipcl
