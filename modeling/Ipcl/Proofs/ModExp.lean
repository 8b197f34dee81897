/-
Every way of cutting the vectors gives the same powers.

A scheme has to reach every index once and to put each result where it belongs.  For
the loops that fill a result from the front, the invariant is that after a chunk the
filled part is a prefix of the powers.  For the slices it is enough to know which
indices they work on, in order: if these are `0, 1, …` up to the length, the slices do
together what one loop over the vector does.

What remains is the way a result of the device is read back.  An octet string whose
lowest digit is zero is not read, so the schemes agree exactly when no power is of
that kind, when no counter declared `int` is too small, and when no slice has more
requests than the ring that holds them has slots.
-/
import Ipcl.Proofs.MultiBuffer

namespace Ipcl

open BigNumber

namespace Engines

/-- Every engine computes the power. -/
structure Lawful (en : Engines) : Prop where
  ipp : en.ipp.Lawful
  mont : ∃ radix, en.mont.Lawful radix
  mbx : en.mbx.Lawful
  qat : en.qat.Lawful

/-! ### Element by element -/

variable {en : Engines} (h : en.Lawful)
include h

theorem ippSBModExp_power {t : Triple} (hadm : Admissible t.1 t.2.1 t.2.2) :
    ippSBModExp en.mont t.1 t.2.1 t.2.2 = .ok t.power := by
  obtain ⟨radix, hmont⟩ := h.mont
  exact ippSBModExp_eq hmont hadm

/-- The loop over single numbers. -/
theorem ippSBModExpWrapper_eq {ts : List Triple}
    (hadm : ∀ t ∈ ts, Admissible t.1 t.2.1 t.2.2) (hlen : ts.length < 2 ^ 31) :
    en.ippSBModExpWrapper (bases ts) (exps ts) (mods ts) = .ok (powers ts) := by
  have hloop : ((List.range (bases ts).length).mapM fun i => do
      let b ← elemAt (bases ts) i
      let e ← elemAt (exps ts) i
      let m ← elemAt (mods ts) i
      ippSBModExp en.mont b e m) = .ok (powers ts) := by
    refine Vec.mapM_range_eq_ok (by simp) fun i hi => ?_
    rw [List.length_map] at hi
    rw [elemAt_eq (by simpa using hi), Result.bind_ok, elemAt_eq (by simpa using hi),
      Result.bind_ok, elemAt_eq (by simpa using hi), Result.bind_ok]
    simp only [List.getElem_map]
    exact ippSBModExp_power h (hadm _ (List.getElem_mem hi))
  rw [ippSBModExpWrapper, intLoop_ok (by rwa [List.length_map]), Result.bind_ok, hloop, shared_ok]

omit h

/-! ### Chunks of eight -/

theorem chunks_eq (n : ℕ) :
    chunks n = (List.range ((n + 7) / 8)).map fun i => (i * 8, min 8 (n - i * 8)) := by
  refine List.map_congr_left fun i hi => ?_
  have hi' : i < (n + 7) / 8 := List.mem_range.mp hi
  show (i * 8, if i = (n + 8 - 1) / 8 - 1 ∧ 0 < n % 8 then n % 8 else 8) = _
  by_cases hlast : i = (n + 8 - 1) / 8 - 1 ∧ 0 < n % 8
  · rw [if_pos hlast, show n % 8 = min 8 (n - i * 8) by omega]
  · rw [if_neg hlast, show min 8 (n - i * 8) = 8 by omega]

/-- The chunks work on every index once, in order. -/
theorem chunks_cover (n : ℕ) :
    ((chunks n).flatMap fun c => List.range' c.1 c.2) = List.range n := by
  have hprefix : ∀ q, (((List.range q).map fun i => (i * 8, min 8 (n - i * 8))).flatMap
      fun c => List.range' c.1 c.2) = List.range (min (q * 8) n) := by
    intro q
    induction q with
    | zero => simp
    | succ q ih =>
        rw [List.range_succ, List.map_append, List.flatMap_append, ih, List.map_singleton,
          List.flatMap_singleton, List.range_eq_range', List.range_eq_range']
        by_cases hq : q * 8 ≤ n
        · rw [show min ((q + 1) * 8) n = q * 8 + min 8 (n - q * 8) by omega,
            ← List.range'_append_1, Nat.zero_add, min_eq_left hq]
        · rw [show min 8 (n - q * 8) = 0 by omega, show min (q * 8) n = n by omega,
            show min ((q + 1) * 8) n = n by omega]
          simp
  rw [chunks_eq, hprefix]
  congr 1
  omega

/-- Copying the next part of a list behind the parts already there. -/
theorem copyTo_next {α : Type} (ys : List α) (x : α) {off n : ℕ} (hn : off + n ≤ ys.length) :
    copyTo (ys.take off ++ List.replicate (ys.length - off) x) off ((ys.drop off).take n)
      = .ok (ys.take (off + n) ++ List.replicate (ys.length - (off + n)) x) := by
  have htake : (ys.take off).length = off := List.length_take_of_le (by omega)
  have hpart : ((ys.drop off).take n).length = n :=
    List.length_take_of_le (by rw [List.length_drop]; omega)
  have hfront : (ys.take off ++ List.replicate (ys.length - off) x).take off = ys.take off :=
    List.take_left' htake
  have hback : (ys.take off ++ List.replicate (ys.length - off) x).drop (off + n)
      = List.replicate (ys.length - (off + n)) x := by
    rw [List.drop_append, htake, List.drop_of_length_le (by omega), List.drop_replicate,
      List.nil_append]
    congr 1
    omega
  have hroom : off + ((ys.drop off).take n).length
      ≤ (ys.take off ++ List.replicate (ys.length - off) x).length := by
    rw [hpart, List.length_append, htake, List.length_replicate]
    omega
  rw [copyTo, if_pos hroom, hpart, hfront, hback, ← List.take_add]

/-- Sub-vectors of the three vectors are the vectors of a part of the triples. -/
theorem slice_map {α β : Type} (f : α → β) {xs : List α} {off n : ℕ}
    (hn : off + n ≤ xs.length) :
    slice (xs.map f) off n = .ok (((xs.drop off).take n).map f) := by
  rw [slice, if_pos (by rwa [List.length_map]), List.map_take, List.map_drop]

include h

/-- A chunk extends the filled part of the result. -/
theorem runChunk_eq {bits : ℕ} {ts : List Triple} (hu : Uniform bits ts) {i : ℕ}
    (hi : i < (ts.length + 7) / 8) :
    en.runChunk (bases ts) (exps ts) (mods ts)
        ((powers ts).take (i * 8) ++ List.replicate (ts.length - i * 8) 0)
        (i * 8, min 8 (ts.length - i * 8))
      = .ok ((powers ts).take ((i + 1) * 8)
          ++ List.replicate (ts.length - (i + 1) * 8) 0) := by
  have hpow : (powers ts).length = ts.length := List.length_map _
  obtain ⟨n, hn⟩ : ∃ n, n = min 8 (ts.length - i * 8) := ⟨_, rfl⟩
  have hfit : i * 8 + n ≤ ts.length := by omega
  have hpart : ((ts.drop (i * 8)).take n).length = n :=
    List.length_take_of_le (by rw [List.length_drop]; omega)
  have hsub : (ts.drop (i * 8)).take n ⊆ ts := fun t ht =>
    List.mem_of_mem_drop (List.mem_of_mem_take ht)
  have hcall := ippMBModExp_eq h.mbx (hu.subset hsub) (List.ne_nil_of_length_pos (by omega))
    (by rw [hpart, hn]; exact min_le_left _ _)
  have hcopy := copyTo_next (powers ts) 0 (hpow.symm ▸ hfit)
  have hparts : ((powers ts).drop (i * 8)).take n = powers ((ts.drop (i * 8)).take n) := by
    rw [powers, powers, List.map_take, List.map_drop]
  have hnext : (powers ts).take (i * 8 + n) = (powers ts).take ((i + 1) * 8) := by
    rw [List.take_eq_take_iff, hpow]
    omega
  have hrest : ts.length - (i * 8 + n) = ts.length - (i + 1) * 8 := by omega
  rw [hpow, hparts, hnext, hrest] at hcopy
  rw [← hn, runChunk, slice_map _ hfit, Result.bind_ok, slice_map _ hfit, Result.bind_ok,
    slice_map _ hfit, Result.bind_ok, hcall, Result.bind_ok]
  exact hcopy

/-- One chunk after the other. -/
theorem ippMBModExpWrapper_eq {bits : ℕ} {ts : List Triple} (hu : Uniform bits ts) :
    en.ippMBModExpWrapper (bases ts) (exps ts) (mods ts) = .ok (powers ts) := by
  have hfill := Vec.foldlM_range_ok
    (f := fun res i => en.runChunk (bases ts) (exps ts) (mods ts) res
      (i * 8, min 8 (ts.length - i * 8)))
    (fun i => (powers ts).take (i * 8) ++ List.replicate (ts.length - i * 8) 0)
    ((ts.length + 7) / 8) fun i hi => runChunk_eq h hu hi
  have hall : (powers ts).take ((ts.length + 7) / 8 * 8) = powers ts :=
    List.take_of_length_le (by rw [List.length_map]; omega)
  rw [Nat.zero_mul, List.take_zero, List.nil_append, Nat.sub_zero, hall,
    Nat.sub_eq_zero_of_le (by omega), List.replicate_zero, List.append_nil] at hfill
  rw [ippMBModExpWrapper, List.length_map, chunks_eq, List.foldlM_map, hfill, shared_ok]

/-- The IPP engines, whichever of them is used. -/
theorem ippModExp_eq {ts : List Triple} {multiBuffer : Bool}
    (hadm : ∀ t ∈ ts, Admissible t.1 t.2.1 t.2.2)
    (hlanes : multiBuffer = true → ts.length ≠ 1 → ∃ bits, Uniform bits ts)
    (hloop : multiBuffer = false → ts.length < 2 ^ 31) :
    en.ippModExp multiBuffer (bases ts) (exps ts) (mods ts) = .ok (powers ts) := by
  unfold ippModExp
  by_cases hone : (bases ts).length = 1
  · rw [List.length_map] at hone
    obtain ⟨t, rfl⟩ := List.length_eq_one_iff.mp hone
    have hpower := ippSBModExp_power h (hadm t (by simp))
    simp only [List.map_cons, List.map_nil, List.length_singleton, if_true]
    show (do let r ← ippSBModExp en.mont t.1 t.2.1 t.2.2; pure [r] : Result (List ℤ)) = _
    rw [hpower]
    rfl
  · rw [if_neg hone]
    rw [List.length_map] at hone
    cases multiBuffer with
    | true =>
        obtain ⟨bits, hu⟩ := hlanes rfl hone
        exact ippMBModExpWrapper_eq h hu
    | false => exact ippSBModExpWrapper_eq h hadm (hloop rfl)

omit h

/-! ### Slices -/

/-- The indices of all slices, in the order they are worked on. -/
def worked (slices : List Slice) : List ℕ := (slices.map (·.indices)).flatten

theorem row_eq {b j n : ℕ} (hfit : j * b + n ≤ 2 ^ 32) :
    row b j n = (List.range n).map fun i => j * b + i := by
  refine List.map_congr_left fun i hi => ?_
  have := List.mem_range.mp hi
  exact Nat.mod_eq_of_lt (by omega)

theorem map_row {q b : ℕ} (hfit : q * b ≤ 2 ^ 32) :
    (List.range q).map (fun j => row b j b)
      = (List.range q).map fun j => (List.range b).map fun i => j * b + i := by
  refine List.map_congr_left fun j hj => row_eq ?_
  have hle : (j + 1) * b ≤ q * b := Nat.mul_le_mul_right b (List.mem_range.mp hj)
  rw [Nat.succ_mul] at hle
  omega

/-- The number of slices is the quotient rounded up. -/
theorem nslicesMT_eq {n b : ℕ} (hn : n + b ≤ 2 ^ 32) (hb : 0 < b) :
    nslicesMT n b = if n % b = 0 then n / b else n / b + 1 := by
  rw [nslicesMT, Nat.mod_eq_of_lt (by omega)]
  have hdiv := Nat.div_add_mod n b
  have hlt := Nat.mod_lt n hb
  by_cases hr : n % b = 0
  · rw [if_pos hr, show n + b - 1 = b * (n / b) + (b - 1) by omega, Nat.mul_add_div hb,
      Nat.div_eq_of_lt (show b - 1 < b by omega), Nat.add_zero]
  · rw [if_neg hr, show n + b - 1 = b * (n / b) + (b + (n % b - 1)) by omega,
      Nat.mul_add_div hb, Nat.add_div_left _ hb,
      Nat.div_eq_of_lt (show n % b - 1 < b by omega)]

theorem nslicesMT_pos {n b : ℕ} (hn : n + b ≤ 2 ^ 32) (hpos : 0 < n) (hb : 0 < b) :
    0 < nslicesMT n b := by
  have hdiv := Nat.div_add_mod n b
  rw [nslicesMT_eq hn hb]
  split_ifs with hr
  · rcases Nat.eq_zero_or_pos (n / b) with hz | hz
    · rw [hz] at hdiv
      omega
    · exact hz
  · exact Nat.succ_pos _

/-- The slices of `heQatBnModExp_MT` work on every index once, in order. -/
theorem worked_slicesMT {n b : ℕ} (hn : n + b ≤ 2 ^ 32) (hpos : 0 < n) (hb : 0 < b) :
    worked (slicesMT n b) = List.range n := by
  have hq := nslicesMT_eq hn hb
  have hdiv := Nat.div_add_mod n b
  have hcomm := Nat.mul_comm b (n / b)
  rw [worked, slicesMT, List.map_map, batchSizeMT, if_pos (nslicesMT_pos hn hpos hb)]
  by_cases hr : n % b = 0
  · rw [hq, if_pos hr, hr]
    have hrows := map_row (q := n / b) (b := b) (by omega)
    simp only [Function.comp_def, lt_irrefl, and_false, if_false]
    rw [hrows, Vec.flatten_rows]
    congr 1
    omega
  · rw [hq, if_neg hr, List.range_succ, List.map_append, List.flatten_append]
    have hfull : (List.range (n / b)).map (fun j =>
        row b j (if j = n / b + 1 - 1 ∧ 0 < n % b then n % b else b))
        = (List.range (n / b)).map fun j => (List.range b).map fun i => j * b + i := by
      rw [← map_row (by omega)]
      refine List.map_congr_left fun j hj => ?_
      have := List.mem_range.mp hj
      rw [if_neg (by omega)]
    have hlast : row b (n / b) (if n / b = n / b + 1 - 1 ∧ 0 < n % b then n % b else b)
        = (List.range (n % b)).map fun i => n / b * b + i := by
      rw [if_pos ⟨rfl, Nat.pos_of_ne_zero hr⟩, row_eq (by omega)]
    simp only [Function.comp_def, List.map_singleton, List.flatten_singleton]
    rw [hfull, hlast, Vec.flatten_rows_append]
    congr 1
    omega

/-- So do the slices of `heQatBnModExp`. -/
theorem worked_slicesOf {n b : ℕ} (hn : n < 2 ^ 31) :
    worked (slicesOf n b) = List.range n := by
  have hdiv := Nat.div_add_mod n b
  have hcomm := Nat.mul_comm b (n / b)
  rw [worked, slicesOf, batchSizeOf]
  by_cases hfew : n / b = 0
  · simp only [if_pos hfew, List.range_one, List.map_singleton, if_true, List.flatten_singleton]
    rw [row_eq (by omega)]
    simp
  · simp only [if_neg hfew]
    have hrows := map_row (q := n / b) (b := b) (by omega)
    by_cases hr : n % b = 0
    · rw [if_pos hr, List.map_map]
      show ((List.range (n / b)).map fun j => row b j b).flatten = _
      rw [hrows, Vec.flatten_rows]
      congr 1
      omega
    · rw [if_neg hr, List.map_append, List.map_map, List.flatten_append, List.map_singleton,
        List.flatten_singleton]
      show ((List.range (n / b)).map fun j => row b j b).flatten ++ row b (n / b) (n % b) = _
      rw [hrows, row_eq (by omega), Vec.flatten_rows_append]
      congr 1
      omega

@[simp] theorem length_row (b j n : ℕ) : (row b j n).length = n := by simp [row]

/-- No slice has more elements than the vector or the batch, and the first has as many. -/
theorem length_slicesMT {n b : ℕ} (hn : n + b ≤ 2 ^ 32) (hpos : 0 < n) (hb : 0 < b) :
    (∀ s ∈ slicesMT n b, s.indices.length ≤ min n b) ∧
      ∃ s ∈ slicesMT n b, s.indices.length = min n b := by
  have hq := nslicesMT_eq hn hb
  have hqpos := nslicesMT_pos hn hpos hb
  have hdiv := Nat.div_add_mod n b
  have hmod := Nat.mod_lt n hb
  rw [slicesMT, batchSizeMT, if_pos hqpos]
  by_cases hfew : n < b
  · have hone : nslicesMT n b = 1 := by
      rw [hq, Nat.mod_eq_of_lt hfew, if_neg hpos.ne', Nat.div_eq_of_lt hfew]
    rw [hone, Nat.mod_eq_of_lt hfew, min_eq_left hfew.le]
    simp [hpos]
  · rw [min_eq_right (not_lt.mp hfew)]
    constructor
    · intro s hs
      obtain ⟨j, -, rfl⟩ := List.mem_map.mp hs
      rw [length_row]
      split_ifs <;> omega
    · refine ⟨_, List.mem_map_of_mem (List.mem_range.mpr hqpos), ?_⟩
      rw [length_row, if_neg]
      rintro ⟨hlast, hres⟩
      rw [hq, if_neg hres.ne'] at hlast
      have : 0 < n / b := Nat.div_pos (not_lt.mp hfew) hb
      omega

theorem length_slicesOf {n b : ℕ} (hb : 0 < b) :
    ∀ s ∈ slicesOf n b, s.indices.length ≤ min n b := by
  intro s hs
  have hmod := Nat.mod_lt n hb
  rw [slicesOf, batchSizeOf] at hs
  by_cases hfew : n / b = 0
  · have hlt : n < b := (Nat.div_eq_zero_iff_lt hb).mp hfew
    simp only [if_pos hfew, if_true, List.range_one, List.map_singleton, List.mem_singleton] at hs
    rw [hs, length_row, min_eq_left hlt.le]
  · have hle : b ≤ n := by
      by_contra hc
      exact hfew (Nat.div_eq_of_lt (not_le.mp hc))
    rw [min_eq_right hle]
    simp only [if_neg hfew] at hs
    split_ifs at hs
    · obtain ⟨j, -, rfl⟩ := List.mem_map.mp hs
      exact (length_row _ _ _).le
    · rcases List.mem_append.mp hs with hs | hs
      · obtain ⟨j, -, rfl⟩ := List.mem_map.mp hs
        exact (length_row _ _ _).le
      · rw [List.mem_singleton.mp hs, length_row]
        exact hmod.le

/-! ### What a slice does -/

theorem bitsizeWord_mono {m n : ℕ} (h : m ≤ n) : bitsizeWord m ≤ bitsizeWord n := by
  unfold bitsizeWord
  omega

theorem bitsizeWord_bitLen_pos (x : ℤ) : 0 < bitsizeWord (bitLen x) := by
  have := bitLen_pos x
  unfold bitsizeWord
  omega

/-- Admissible operands, moduli of one bit length and exponents that have no more words. -/
structure Sendable (bits : ℕ) (ts : List Triple) : Prop where
  admissible : ∀ t ∈ ts, Admissible t.1 t.2.1 t.2.2
  mod_bits : ∀ t ∈ ts, bitLen t.2.2 = bits
  exp_words : ∀ t ∈ ts, bitsizeWord (bitLen t.2.1) ≤ bitsizeWord bits

theorem Sendable.of_uniform {bits : ℕ} {ts : List Triple} (hu : Uniform bits ts) :
    Sendable bits ts where
  admissible := hu.admissible
  mod_bits := hu.mod_bits
  exp_words t ht := bitsizeWord_mono (hu.exp_bits t ht)

/-- The octet strings are long enough for a number that has no more words than the
modulus. -/
theorem operand_eq {bits : ℕ} {x : ℤ} (hwords : bitsizeWord (bitLen x) ≤ bitsizeWord bits)
    (msg : String) :
    operand (bitsizeWord bits * 4) x msg
      = .ok (octets (bitsizeWord bits * 4) x.natAbs) := by
  have hpos := bitsizeWord_bitLen_pos x
  rw [operand, toBin_eq (by omega) (by omega)]
  rfl

/-- The octet string left by the request for an index. -/
theorem request_eq (h : en.qat.Lawful) {bits : ℕ} {ts : List Triple} (hs : Sendable bits ts)
    {i : ℕ} (hi : i < ts.length) :
    en.request (bitsizeWord bits * 4) (bases ts) (exps ts) (mods ts) i
      = .ok (octets (bitsizeWord bits * 4) ((powers ts).getD i 0).natAbs) := by
  have hmem : ts[i] ∈ ts := List.getElem_mem hi
  have hadm := hs.admissible _ hmem
  have hmod := hs.mod_bits _ hmem
  have hbase := bitsizeWord_mono (base_bits hadm hmod)
  have hexp := hs.exp_words _ hmem
  have h0 := hadm.base_nonneg
  have h1 := hadm.base_lt
  have hpow : (256 : ℕ) ^ (bitsizeWord bits * 4) = 2 ^ (32 * bitsizeWord bits) := by
    rw [pow_octets]
    congr 1
    ring
  have hlt : ∀ x : ℤ, bitsizeWord (bitLen x) ≤ bitsizeWord bits →
      x.natAbs < 256 ^ (bitsizeWord bits * 4) := by
    intro x hx
    rw [hpow]
    refine (natAbs_lt_two_pow_bitLen x).trans_le (Nat.pow_le_pow_right Nat.two_pos ?_)
    unfold bitsizeWord at hx ⊢
    omega
  have hget : (powers ts).getD i 0 = ts[i].power := by
    rw [List.getD_eq_getElem _ _ (by simpa using hi), List.getElem_map]
  rw [request, elemAt_eq (by simpa using hi), Result.bind_ok, List.getElem_map,
    operand_eq hbase, Result.bind_ok, elemAt_eq (by simpa using hi), Result.bind_ok,
    List.getElem_map, operand_eq hexp, Result.bind_ok, elemAt_eq (by simpa using hi),
    Result.bind_ok, List.getElem_map, operand_eq (hmod ▸ le_rfl), Result.bind_ok,
    h.exp_ok _ _ _ _ (Int.natAbs_odd.mpr hadm.odd) (by omega) (hlt _ (hmod ▸ le_rfl))
      (hlt _ hexp), hget, power_natAbs hadm, Int.natAbs_natCast]
  rfl

/-- What reading a result back comes to. -/
def readBack (words : ℕ) (ys rem : List ℤ) (i : ℕ) : Result (List ℤ) :=
  if Readable words (ys.getD i 0).natAbs then setAt rem i (ys.getD i 0)
  else .error (.undefined "write past the digits of a number")

theorem collect_eq {bits : ℕ} {ts : List Triple} (hs : Sendable bits ts) (hpos : 0 < bits)
    {i : ℕ} (hi : i < ts.length) (msg : String) (rem : List ℤ) :
    collect (bitsizeWord bits * 4) msg rem i
        (octets (bitsizeWord bits * 4) ((powers ts).getD i 0).natAbs)
      = readBack (bitsizeWord bits) (powers ts) rem i := by
  have hmem : ts[i] ∈ ts := List.getElem_mem hi
  have hadm := hs.admissible _ hmem
  have hget : (powers ts).getD i 0 = ts[i].power := by
    rw [List.getD_eq_getElem _ _ (by simpa using hi), List.getElem_map]
  have h0 : 0 ≤ ts[i].power := powMod_nonneg hadm.mod_pos
  have h1 : ts[i].power < ts[i].2.2 := powMod_lt hadm.mod_pos
  have hbits : bitLen ts[i].power ≤ bits :=
    hs.mod_bits _ hmem ▸ bitLen_le_of_natAbs_le (by omega)
  have hwords : 0 < bitsizeWord bits := by
    unfold bitsizeWord
    omega
  have hlt : ts[i].power.natAbs < 256 ^ (4 * bitsizeWord bits) := by
    rw [pow_octets]
    refine (natAbs_lt_two_pow_bitLen _).trans_le (Nat.pow_le_pow_right Nat.two_pos ?_)
    unfold bitsizeWord
    omega
  rw [collect, readBack, hget, Nat.mul_comm _ 4, fromBin_octets hwords hlt]
  by_cases hr : Readable (bitsizeWord bits) ts[i].power.natAbs
  · rw [if_pos hr, if_pos hr, Result.bind_ok, Int.natAbs_of_nonneg h0]
  · rw [if_neg hr, if_neg hr, Result.bind_error]

/-- A slice that fits the ring reads the powers at its indices back. -/
theorem qatSlice_eq (h : en.qat.Lawful) {bits : ℕ} {ts : List Triple} (hs : Sendable bits ts)
    (hpos : 0 < bits) {s : Slice} (hin : ∀ i ∈ s.indices, i < ts.length)
    (hfit : s.indices.length ≤ HeQat.bufferSize) (rem : List ℤ) :
    en.qatSlice (bitsizeWord bits * 4) (bases ts) (exps ts) (mods ts) rem s
      = s.indices.foldlM (readBack (bitsizeWord bits) (powers ts)) rem := by
  have hzip : s.indices.zip (s.indices.map fun i =>
      octets (bitsizeWord bits * 4) ((powers ts).getD i 0).natAbs)
      = s.indices.map fun i =>
        (i, octets (bitsizeWord bits * 4) ((powers ts).getD i 0).natAbs) := by
    conv_lhs => rw [← List.map_id s.indices, List.map_map, List.zip_map']
    rfl
  rw [qatSlice, Vec.mapM_ok s.indices fun i hi => request_eq h hs (hin i hi), Result.bind_ok,
    if_neg hfit.not_gt, hzip, List.foldlM_map]
  exact Vec.foldlM_congr rem fun i hi rem => collect_eq hs hpos (hin i hi) s.msg rem

/-- A slice that comes to its end fits the ring. -/
theorem fits_of_qatSlice {length : ℕ} {base exponent modulus rem rem' : List ℤ} {s : Slice}
    (hok : en.qatSlice length base exponent modulus rem s = .ok rem') :
    s.indices.length ≤ HeQat.bufferSize := by
  obtain ⟨outs, -, hok⟩ := Result.of_bind_ok hok
  by_contra hlong
  rw [if_pos (not_le.mp hlong)] at hok
  cases hok

/-- What the two functions run, with the length taken from the first modulus. -/
theorem qatBatches_slices (h : en.ipp.Lawful) {bits : ℕ} {ts : List Triple}
    (hadm : ∀ t ∈ ts, Admissible t.1 t.2.1 t.2.2) (hmod : ∀ t ∈ ts, bitLen t.2.2 = bits)
    (hne : ts ≠ []) (hlen : ts.length < 2 ^ 32) {b : ℕ} (hb : 0 < b)
    (slices : ℕ → ℕ → List Slice) (preallocated : ℕ → ℕ → ℕ) :
    en.qatBatches slices preallocated (bases ts) (exps ts) (mods ts) b = (do
      intLoop (preallocated ts.length b)
      (slices ts.length b).foldlM
        (en.qatSlice (bitsizeWord bits * 4) (bases ts) (exps ts) (mods ts))
        (List.replicate ts.length 0)) := by
  obtain ⟨t, rest, hts⟩ := List.exists_cons_of_ne_nil hne
  have hmem : t ∈ ts := hts ▸ List.mem_cons_self
  have hfront : elemAt (mods ts) 0 = .ok t.2.2 := by
    rw [hts]
    rfl
  have hsize : (bitSize en.ipp t.2.2).toNat = bits := by
    rw [bitSize_eq h (hadm t hmem).mod_pos.ne', hmod t hmem, Int.toNat_natCast]
  rw [qatBatches, hfront, Result.bind_ok, if_neg hb.ne', List.length_map,
    Nat.mod_eq_of_lt hlen, hsize]

/-- A batch that comes to its end has no slice that does not fit the ring. -/
theorem fits_of_qatBatches (h : en.ipp.Lawful) {bits : ℕ} {ts : List Triple}
    (hadm : ∀ t ∈ ts, Admissible t.1 t.2.1 t.2.2) (hmod : ∀ t ∈ ts, bitLen t.2.2 = bits)
    (hne : ts ≠ []) (hlen : ts.length < 2 ^ 32) {b : ℕ} (hb : 0 < b)
    {slices : ℕ → ℕ → List Slice} {preallocated : ℕ → ℕ → ℕ} {rs : List ℤ}
    (hok : en.qatBatches slices preallocated (bases ts) (exps ts) (mods ts) b = .ok rs) :
    ∀ s ∈ slices ts.length b, s.indices.length ≤ HeQat.bufferSize := by
  rw [qatBatches_slices h hadm hmod hne hlen hb] at hok
  obtain ⟨_, -, hslices⟩ := Result.of_bind_ok hok
  intro s hs
  obtain ⟨rem, rem', hslice⟩ := Vec.foldlM_ok_mem hslices s hs
  exact fits_of_qatSlice hslice

/-- Slices that work on every index once, in order, do what one loop over the vector
does. -/
theorem qatBatches_eq (h : en.Lawful) {bits : ℕ} {ts : List Triple} (hs : Sendable bits ts)
    (hne : ts ≠ []) (hlen : ts.length < 2 ^ 32) {slices : ℕ → ℕ → List Slice}
    {preallocated : ℕ → ℕ → ℕ} {b : ℕ} (hb : 0 < b)
    (hworked : worked (slices ts.length b) = List.range ts.length)
    (hfit : ∀ s ∈ slices ts.length b, s.indices.length ≤ HeQat.bufferSize) :
    en.qatBatches slices preallocated (bases ts) (exps ts) (mods ts) b = (do
      intLoop (preallocated ts.length b)
      (List.range ts.length).foldlM (readBack (bitsizeWord bits) (powers ts))
        (List.replicate ts.length 0)) := by
  obtain ⟨t, hmem⟩ := List.exists_mem_of_ne_nil ts hne
  have hpos : 0 < bits := hs.mod_bits t hmem ▸ bitLen_pos _
  have hindices : ∀ s ∈ slices ts.length b, ∀ i ∈ s.indices, i < ts.length := by
    intro s hs i hi
    rw [← List.mem_range, ← hworked]
    exact List.mem_flatten.mpr ⟨s.indices, List.mem_map_of_mem hs, hi⟩
  rw [qatBatches_slices h.ipp hs.admissible hs.mod_bits hne hlen hb]
  refine bind_congr fun _ => ?_
  rw [Vec.foldlM_congr _ fun s hmem rem =>
      qatSlice_eq h.qat hs hpos (hindices s hmem) (hfit s hmem) rem,
    ← hworked, worked, ← Vec.foldlM_flatten, List.foldlM_map]

/-- Reading all results back, when every one of them can be read. -/
theorem readBack_all (words : ℕ) (ys : List ℤ) (hread : ∀ y ∈ ys, Readable words y.natAbs) :
    (List.range ys.length).foldlM (readBack words ys) (List.replicate ys.length 0)
      = .ok ys := by
  refine Vec.foldlM_range_fill (by simp) fun i hi xs hxs => ?_
  rw [readBack, List.getD_eq_getElem _ _ hi, if_pos (hread _ (List.getElem_mem hi)), setAt,
    if_pos (by omega)]

/-- And only then. -/
theorem readable_of_readBack {words : ℕ} {ys init rem : List ℤ}
    (hok : (List.range ys.length).foldlM (readBack words ys) init = .ok rem) :
    ∀ y ∈ ys, Readable words y.natAbs := by
  intro y hy
  obtain ⟨i, hi, rfl⟩ := List.getElem_of_mem hy
  obtain ⟨s, t, hst⟩ := Vec.foldlM_ok_mem hok i (List.mem_range.mpr hi)
  by_contra hr
  rw [readBack, List.getD_eq_getElem _ _ hi, if_neg hr] at hst
  cases hst

/-! ### All schemes together -/

/-- Every scheme returns the powers, and the chunks and slices work on every index once,
in order. -/
structure SchemesAgree (en : Engines) (batchSize qatSize : ℕ) (ts : List Triple) : Prop where
  single : en.ippSBModExpWrapper (bases ts) (exps ts) (mods ts) = .ok (powers ts)
  chunked : en.ippMBModExpWrapper (bases ts) (exps ts) (mods ts) = .ok (powers ts)
  chosen : ∀ mb, en.ippModExp mb (bases ts) (exps ts) (mods ts) = .ok (powers ts)
  slicedMT : en.heQatBnModExp_MT (bases ts) (exps ts) (mods ts) batchSize = .ok (powers ts)
  sliced : en.heQatBnModExp (bases ts) (exps ts) (mods ts) batchSize = .ok (powers ts)
  hybrid : ∀ mb, en.modExp mb qatSize (bases ts) (exps ts) (mods ts) = .ok (powers ts)
  coversChunks : ((chunks ts.length).flatMap fun c => List.range' c.1 c.2) = List.range ts.length
  coversMT : worked (slicesMT ts.length batchSize) = List.range ts.length
  covers : worked (slicesOf ts.length batchSize) = List.range ts.length

variable (h : en.Lawful) {bits : ℕ} {ts : List Triple}
include h

/-- Slices that cover the indices return the powers when each can be read back. -/
theorem qatBatches_ok (hs : Sendable bits ts) (hne : ts ≠ []) (hlen : ts.length < 2 ^ 32)
    {slices : ℕ → ℕ → List Slice} {preallocated : ℕ → ℕ → ℕ} {b : ℕ} (hb : 0 < b)
    (hworked : worked (slices ts.length b) = List.range ts.length)
    (hfit : ∀ s ∈ slices ts.length b, s.indices.length ≤ HeQat.bufferSize)
    (hsize : preallocated ts.length b < 2 ^ 31)
    (hread : ∀ t ∈ ts, Readable (bitsizeWord bits) t.power.natAbs) :
    en.qatBatches slices preallocated (bases ts) (exps ts) (mods ts) b = .ok (powers ts) := by
  have hall := readBack_all (bitsizeWord bits) (powers ts) fun y hy => by
    obtain ⟨t, ht, rfl⟩ := List.mem_map.mp hy
    exact hread t ht
  rw [List.length_map] at hall
  rw [qatBatches_eq h hs hne hlen hb hworked hfit, intLoop_ok hsize, Result.bind_ok, hall]

theorem heQatBnModExp_MT_eq (hs : Sendable bits ts) (hne : ts ≠ []) {b : ℕ}
    (hlen : ts.length + b ≤ 2 ^ 32) (hb : 0 < b) (hb' : b < 2 ^ 31)
    (hfit : min ts.length b ≤ HeQat.bufferSize)
    (hread : ∀ t ∈ ts, Readable (bitsizeWord bits) t.power.natAbs) :
    en.heQatBnModExp_MT (bases ts) (exps ts) (mods ts) b = .ok (powers ts) := by
  have hpos : 0 < ts.length := List.length_pos_iff.mpr hne
  refine qatBatches_ok h hs hne (by omega) hb (worked_slicesMT hlen hpos hb)
    (fun s hmem => ((length_slicesMT hlen hpos hb).1 s hmem).trans hfit) ?_ hread
  rw [batchSizeMT, if_pos (nslicesMT_pos hlen hpos hb)]
  exact hb'

theorem heQatBnModExp_eq (hs : Sendable bits ts) (hne : ts ≠ []) (hlen : ts.length < 2 ^ 31)
    {b : ℕ} (hb : 0 < b) (hb' : b < 2 ^ 31) (hfit : min ts.length b ≤ HeQat.bufferSize)
    (hread : ∀ t ∈ ts, Readable (bitsizeWord bits) t.power.natAbs) :
    en.heQatBnModExp (bases ts) (exps ts) (mods ts) b = .ok (powers ts) := by
  refine qatBatches_ok h hs hne (by omega) hb (worked_slicesOf hlen)
    (fun s hmem => (length_slicesOf hb s hmem).trans hfit) ?_ hread
  unfold batchSizeOf
  split_ifs <;> omega

omit h in
/-- The hybrid branch, on the triples of either part. -/
theorem modExp_hybrid {mb : Bool} {k : ℕ} (hpos : 0 < k) (hk : k < ts.length) :
    en.modExp mb k (bases ts) (exps ts) (mods ts) = (do
      let qatRes ← terminating
        (en.qatModExp (bases (ts.take k)) (exps (ts.take k)) (mods (ts.take k)))
      let ippRes ← terminating
        (en.ippModExp mb (bases (ts.drop k)) (exps (ts.drop k)) (mods (ts.drop k)))
      let res ← copyTo (List.replicate ts.length 0) 0 qatRes
      copyTo res k ippRes) := by
  have hfirst : ∀ f : Triple → ℤ, slice (ts.map f) 0 k = .ok ((ts.take k).map f) := fun f => by
    rw [slice_map f (by omega), List.drop_zero]
  have hrest : ∀ f : Triple → ℤ, slice (ts.map f) k (ts.length - k)
      = .ok ((ts.drop k).map f) := fun f => by
    rw [slice_map f (by omega), List.take_of_length_le (by simp)]
  unfold modExp
  rw [if_neg (by rw [List.length_map]; omega), if_neg hpos.ne']
  simp only [hfirst, hrest, Result.bind_ok, List.length_map]

/-- The first `k` triples can be sent to the device and its results be read back, the others
are what the other engines take. -/
structure Served (mb : Bool) (bits k : ℕ) (ts : List Triple) : Prop where
  sendable : Sendable bits (ts.take k)
  readable : ∀ t ∈ ts.take k, Readable (bitsizeWord bits) t.power.natAbs
  admissible : ∀ t ∈ ts.drop k, Admissible t.1 t.2.1 t.2.2
  lanes : mb = true → (ts.drop k).length ≠ 1 → Uniform bits (ts.drop k)
  loop : mb = false → (ts.drop k).length < 2 ^ 31

omit h in
theorem Served.of_uniform (hu : Uniform bits ts) (hlen : ts.length < 2 ^ 31)
    (hread : ∀ t ∈ ts, Readable (bitsizeWord bits) t.power.natAbs) (mb : Bool) (k : ℕ) :
    Served mb bits k ts where
  sendable := .of_uniform (hu.subset (List.take_subset k ts))
  readable t ht := hread t (List.mem_of_mem_take ht)
  admissible t ht := hu.admissible t (List.mem_of_mem_drop ht)
  lanes _ _ := hu.subset (List.drop_subset k ts)
  loop _ := by
    rw [List.length_drop]
    omega

/-- A first part on the device and the rest on the other engines. -/
theorem modExp_eq {mb : Bool} {k : ℕ} (hs : Served mb bits k ts) (hne : ts ≠ [])
    (hk : k ≤ ts.length) (hcount : k + qatModexpBatchSize ≤ 2 ^ 32) :
    en.modExp mb k (bases ts) (exps ts) (mods ts) = .ok (powers ts) := by
  have hqat : 0 < k → en.qatModExp (bases (ts.take k)) (exps (ts.take k)) (mods (ts.take k))
      = .ok (powers (ts.take k)) := by
    intro hpos
    have hlen : (ts.take k).length = k := List.length_take_of_le hk
    exact heQatBnModExp_MT_eq h hs.sendable (List.ne_nil_of_length_pos (by omega))
      (hlen.symm ▸ hcount) (by decide) (by decide) (min_le_right _ _) hs.readable
  have hipp : en.ippModExp mb (bases (ts.drop k)) (exps (ts.drop k)) (mods (ts.drop k))
      = .ok (powers (ts.drop k)) :=
    ippModExp_eq h hs.admissible (fun hmb hone => ⟨bits, hs.lanes hmb hone⟩) hs.loop
  by_cases hall : k = ts.length
  · have hdev := hqat (hall ▸ List.length_pos_iff.mpr hne)
    rw [hall, List.take_length] at hdev
    rw [modExp, if_pos (by rw [List.length_map, hall]), hdev]
  by_cases hzero : k = 0
  · subst hzero
    rw [modExp, if_neg (by rwa [List.length_map]), if_pos rfl]
    exact hipp
  have hpow : (powers ts).length = ts.length := List.length_map _
  have hcopy₁ := copyTo_next (powers ts) 0 (show 0 + k ≤ _ by omega)
  have hcopy₂ := copyTo_next (powers ts) 0 (show k + (ts.length - k) ≤ _ by omega)
  rw [List.take_zero, List.nil_append, List.drop_zero, Nat.sub_zero, Nat.zero_add, hpow]
    at hcopy₁
  have hpart : ((powers ts).drop k).take (ts.length - k) = (powers ts).drop k :=
    List.take_of_length_le (by rw [List.length_drop, hpow])
  rw [hpow, hpart, show k + (ts.length - k) = ts.length by omega,
    List.take_of_length_le hpow.le, Nat.sub_self, List.replicate_zero, List.append_nil] at hcopy₂
  rw [modExp_hybrid (by omega) (by omega), hqat (by omega), hipp, powers, List.map_take, powers,
    List.map_drop]
  simp only [terminating, Result.bind_ok, hcopy₁, hcopy₂]

/-- What the device returns has been read back. -/
theorem readable_of_ok (hs : Sendable bits ts) (hne : ts ≠ []) {b : ℕ}
    (hlen : ts.length + b ≤ 2 ^ 32) (hb : 0 < b) {rs : List ℤ}
    (hok : en.heQatBnModExp_MT (bases ts) (exps ts) (mods ts) b = .ok rs) :
    ∀ t ∈ ts, Readable (bitsizeWord bits) t.power.natAbs := by
  have hworked := worked_slicesMT hlen (List.length_pos_iff.mpr hne) hb
  have hfit := fits_of_qatBatches h.ipp hs.admissible hs.mod_bits hne (by omega) hb hok
  rw [heQatBnModExp_MT, qatBatches_eq h hs hne (by omega) hb hworked hfit] at hok
  obtain ⟨_, -, hread⟩ := Result.of_bind_ok hok
  have hpow : ts.length = (powers ts).length := (List.length_map _).symm
  rw [hpow] at hread
  exact fun t ht => readable_of_readBack hread t.power (List.mem_map_of_mem ht)

omit h in
/-- Agreement asks that no counter is too small. -/
theorem SchemesAgree.counters {k b : ℕ} (hag : SchemesAgree en b k ts) (hne : ts ≠ [])
    (hb : 0 < b) : ts.length < 2 ^ 31 ∧ b < 2 ^ 31 := by
  have hpos : 0 < ts.length := List.length_pos_iff.mpr hne
  have hlen : ts.length < 2 ^ 31 := by
    have hok := lt_of_intLoop hag.single
    rwa [List.length_map] at hok
  refine ⟨hlen, ?_⟩
  -- with a batch size that wraps around there is no slice at all
  have hq : 0 < nslicesMT ts.length b := by
    by_contra hc
    have hnil : slicesMT ts.length b = [] := by
      rw [slicesMT, Nat.eq_zero_of_not_pos hc]
      rfl
    have hcover := congrArg List.length hag.coversMT
    rw [hnil, List.length_range] at hcover
    exact hpos.ne hcover
  obtain ⟨t, rest, rfl⟩ := List.exists_cons_of_ne_nil hne
  have hok := hag.slicedMT
  rw [heQatBnModExp_MT, qatBatches, elemAt_eq (by simp), Result.bind_ok, if_neg hb.ne',
    List.length_map, Nat.mod_eq_of_lt (by omega), batchSizeMT, if_pos hq] at hok
  exact lt_of_intLoop hok

/-- Agreement asks that the slices fit the ring. -/
theorem SchemesAgree.fits {k b : ℕ} (hag : SchemesAgree en b k ts) (hu : Uniform bits ts)
    (hne : ts ≠ []) (hb : 0 < b) : min ts.length b ≤ HeQat.bufferSize := by
  obtain ⟨hlen, hb'⟩ := hag.counters hne hb
  obtain ⟨s, hs, hsize⟩ := (length_slicesMT (by omega) (List.length_pos_iff.mpr hne) hb).2
  rw [← hsize]
  exact fits_of_qatBatches h.ipp hu.admissible hu.mod_bits hne (by omega) hb hag.slicedMT s hs

/-- Agreement asks that every power can be read back. -/
theorem SchemesAgree.readable {k b : ℕ} (hag : SchemesAgree en b k ts) (hu : Uniform bits ts)
    (hne : ts ≠ []) (hb : 0 < b) :
    ∀ t ∈ ts, Readable (bitsizeWord bits) t.power.natAbs := by
  obtain ⟨hlen, hb'⟩ := hag.counters hne hb
  have hpos : 0 < ts.length := List.length_pos_iff.mpr hne
  exact readable_of_ok h (.of_uniform hu) hne (by omega) hb hag.slicedMT

/--
**All batching schemes return the powers exactly when each can be read back.**

The length of the vectors and the batch size have to fit the counters declared `int`, a
slice has to fit the ring that holds its requests, and an octet string of the device, in
the words of the moduli, must not end in a digit that is zero.
-/
theorem schemes_agree_iff (hu : Uniform bits ts) (hne : ts ≠ []) {batchSize qatSize : ℕ}
    (hb : 0 < batchSize) (hk : qatSize ≤ ts.length) :
    SchemesAgree en batchSize qatSize ts ↔
      ts.length < 2 ^ 31 ∧ batchSize < 2 ^ 31 ∧ min ts.length batchSize ≤ HeQat.bufferSize ∧
        ∀ t ∈ ts, Readable (bitsizeWord bits) t.power.natAbs := by
  constructor
  · intro hag
    obtain ⟨hlen, hb'⟩ := hag.counters hne hb
    exact ⟨hlen, hb', hag.fits h hu hne hb, hag.readable h hu hne hb⟩
  · intro hcond
    obtain ⟨hlen, hb', hfit, hread⟩ := hcond
    have hpos : 0 < ts.length := List.length_pos_iff.mpr hne
    exact {
      single := ippSBModExpWrapper_eq h hu.admissible hlen
      chunked := ippMBModExpWrapper_eq h hu
      chosen := fun mb => ippModExp_eq h hu.admissible (fun _ _ => ⟨bits, hu⟩) fun _ => hlen
      slicedMT := heQatBnModExp_MT_eq h (.of_uniform hu) hne (by omega) hb hb' hfit hread
      sliced := heQatBnModExp_eq h (.of_uniform hu) hne hlen hb hb' hfit hread
      hybrid := fun mb => modExp_eq h (.of_uniform hu hlen hread mb _) hne hk (by
        unfold qatModexpBatchSize
        omega)
      coversChunks := chunks_cover _
      coversMT := worked_slicesMT (by omega) hpos hb
      covers := worked_slicesOf hlen }

omit h

/-- The engines that compute on values. -/
def reference : Engines where
  ipp := Ipp.reference
  mont := Mont.reference
  mbx := Mbx.reference
  qat := Qat.reference
  openmp := true

theorem reference_lawful : reference.Lawful :=
  ⟨Ipp.reference_lawful, ⟨montRadix, Mont.reference_lawful⟩, Mbx.reference_lawful,
    Qat.reference_lawful⟩

/-- Two powers modulo 7 and 5. -/
theorem schemes_agree_seven_five :
    SchemesAgree reference 1 1 [(3, 2, 7), (4, 3, 5)] :=
  have hu : Uniform 3 [(3, 2, 7), (4, 3, 5)] := by decide
  (schemes_agree_iff reference_lawful hu (by decide) (by decide) (by decide)).mpr (by decide)

/-- With a single base `2 ^ 64` modulo `2 ^ 64 + 1`, the result of the device is not read. -/
theorem schemes_disagree_two_pow :
    ¬ SchemesAgree reference 1024 1 [(2 ^ 64, 1, 2 ^ 64 + 1)] := by
  intro hag
  have hu : Uniform 65 [((2 : ℤ) ^ 64, (1 : ℤ), (2 : ℤ) ^ 64 + 1)] := by decide
  have hread := hag.readable reference_lawful hu (by decide) (by decide) _ List.mem_cons_self
  revert hread
  decide

end Engines

end Ipcl
