/-
What the engines refuse, and what they ask.

Nothing but the single-buffer function refuses an exponent by an exception.  What does
not suit the device ends the program or is written outside a buffer, and the reference
functions take whatever they are given.

So a vector that is not refused has come back, and then something is known of it: its
exponents had the words of the modulus where they went to the device, and the results
could be read.  The multi-buffer function may refuse exponents that are longer than its
moduli, and one that does has been given none.
-/
import Ipcl.Proofs.Lanes
import Ipcl.Proofs.ModExp

namespace Ipcl

open BigNumber

namespace Engines

/-! ### What is not refused -/

section
variable (en : Engines)

theorem not_throws_intLoop (n : ℕ) : ¬ Throws (intLoop n) := by
  intro hthrows
  unfold intLoop at hthrows
  split_ifs at hthrows
  · exact not_throws_ok hthrows
  · exact not_throws_undefined hthrows

theorem not_throws_storeDown (bytes : List ℕ) :
    ∀ (data : List ℕ) (pos : ℤ), ¬ Throws (storeDown data pos bytes) := by
  induction bytes with
  | nil =>
      intro data pos
      exact not_throws_ok
  | cons b rest ih =>
      intro data pos
      rw [storeDown]
      split_ifs
      · exact ih _ _
      · exact not_throws_undefined

theorem not_throws_operand (length : ℕ) (x : ℤ) (msg : String) :
    ¬ Throws (operand length x msg) := by
  intro hthrows
  rcases hthrows.of_bind with hbin | ⟨⟨ret, data⟩, -, hrest⟩
  · unfold toBin at hbin
    split_ifs at hbin
    · exact not_throws_ok hbin
    · rcases hbin.of_bind with hstore | ⟨_, -, hpure⟩
      · exact not_throws_storeDown _ _ _ hstore
      · exact not_throws_ok hpure
  · cases ret with
    | true => exact not_throws_ok hrest
    | false =>
        obtain ⟨_, hmsg⟩ := hrest
        cases hmsg

theorem not_throws_request (length : ℕ) (base exponent modulus : List ℤ) (i : ℕ) :
    ¬ Throws (en.request length base exponent modulus i) := by
  intro hthrows
  obtain ⟨b, -, hthrows⟩ := hthrows.of_bind.resolve_left (not_throws_elemAt _ _)
  obtain ⟨_, -, hthrows⟩ := hthrows.of_bind.resolve_left (not_throws_operand _ _ _)
  obtain ⟨e, -, hthrows⟩ := hthrows.of_bind.resolve_left (not_throws_elemAt _ _)
  obtain ⟨_, -, hthrows⟩ := hthrows.of_bind.resolve_left (not_throws_operand _ _ _)
  obtain ⟨m, -, hthrows⟩ := hthrows.of_bind.resolve_left (not_throws_elemAt _ _)
  obtain ⟨_, -, hthrows⟩ := hthrows.of_bind.resolve_left (not_throws_operand _ _ _)
  exact not_throws_ok hthrows

theorem not_throws_fromBin (data : List ℕ) (len : ℤ) : ¬ Throws (fromBin data len) := by
  intro hthrows
  unfold fromBin at hthrows
  simp only at hthrows
  split_ifs at hthrows
  · exact not_throws_ok hthrows
  · exact not_throws_undefined hthrows
  · exact not_throws_undefined hthrows
  · exact not_throws_ok hthrows

theorem not_throws_collect (length : ℕ) (msg : String) (rem : List ℤ) (i : ℕ) (out : List ℕ) :
    ¬ Throws (collect length msg rem i out) := by
  intro hthrows
  rcases hthrows.of_bind with hread | ⟨bn, -, hrest⟩
  · exact not_throws_fromBin _ _ hread
  · cases bn with
    | none =>
        obtain ⟨_, hmsg⟩ := hrest
        cases hmsg
    | some x =>
        change Throws (setAt rem i x) at hrest
        unfold setAt at hrest
        split_ifs at hrest
        · exact not_throws_ok hrest
        · exact not_throws_undefined hrest

/-- A slice that does not fit the ring does not come back. -/
theorem overlong_slicesMT {n b : ℕ} {s : Slice} (hs : s ∈ slicesMT n b) : s.overlong = .hang := by
  obtain ⟨j, -, rfl⟩ := List.mem_map.mp hs
  rfl

/-- The device refuses nothing by an exception. -/
theorem not_throws_qatModExp (base exponent modulus : List ℤ) :
    ¬ Throws (en.qatModExp base exponent modulus) := by
  intro hthrows
  obtain ⟨front, -, hthrows⟩ := hthrows.of_bind.resolve_left (not_throws_elemAt _ _)
  rw [if_neg (by decide)] at hthrows
  obtain ⟨_, -, ⟨msg, hslices⟩⟩ := hthrows.of_bind.resolve_left (not_throws_intLoop _)
  obtain ⟨s, hs, rem, hslice⟩ := Vec.foldlM_error_mem hslices
  rcases Throws.of_bind ⟨msg, hslice⟩ with ⟨msg, houts⟩ | ⟨outs, -, ⟨msg, hcollect⟩⟩
  · obtain ⟨i, -, hreq⟩ := Vec.mapM_error_mem houts
    exact not_throws_request _ _ _ _ _ _ ⟨msg, hreq⟩
  split_ifs at hcollect
  · rw [overlong_slicesMT hs] at hcollect
    cases hcollect
  · obtain ⟨out, -, rem', hread⟩ := Vec.foldlM_error_mem hcollect
    exact not_throws_collect _ _ _ _ _ ⟨msg, hread⟩

end

/-- The reference engines of a build. -/
def referenceOf (openmp : Bool) : Engines := { reference with openmp := openmp }

theorem referenceOf_lawful (openmp : Bool) : (referenceOf openmp).Lawful :=
  ⟨Ipp.reference_lawful, ⟨montRadix, Mont.reference_lawful⟩, Mbx.reference_lawful,
    Qat.reference_lawful⟩

section
variable {ts : List Triple} (hodd : ∀ t ∈ ts, Odd t.2.2) {openmp : Bool}
include hodd

/-- A chunk of the reference engines throws for no exponent. -/
theorem not_throws_runChunk {c : ℕ × ℕ} (hc : c.2 ≤ cryptoMbSize) (res : List ℤ) :
    ¬ Throws ((referenceOf openmp).runChunk (bases ts) (exps ts) (mods ts) res c) := by
  intro hthrows
  obtain ⟨b, hb, hthrows⟩ := hthrows.of_bind.resolve_left (not_throws_slice _ _ _)
  obtain ⟨e, he, hthrows⟩ := hthrows.of_bind.resolve_left (not_throws_slice _ _ _)
  obtain ⟨m, hm, hthrows⟩ := hthrows.of_bind.resolve_left (not_throws_slice _ _ _)
  have hroom := room_of_slice hb
  rw [List.length_map] at hroom
  rw [slice_map _ hroom] at hb he hm
  cases hb
  cases he
  cases hm
  rcases hthrows.of_bind with hcall | ⟨tmp, -, hcopy⟩
  · refine not_throws_reference (fun t ht => hodd t ?_) ?_ hcall
    · exact List.mem_of_mem_drop (List.mem_of_mem_take ht)
    · rw [List.length_take]
      omega
  · exact not_throws_copyTo _ _ _ hcopy

/-- Several elements are refused by none of the reference engines but the single-buffer one,
and by that one only where its loop is not shared. -/
theorem not_throws_modExp {mb : Bool} {q : ℕ} (hpath : openmp = true ∨ mb = true ∨ 0 < q)
    (hlen : ts.length ≠ 1) :
    ¬ Throws ((referenceOf openmp).modExp mb q (bases ts) (exps ts) (mods ts)) := by
  intro hthrows
  unfold modExp at hthrows
  split_ifs at hthrows with hall hzero
  · exact not_throws_qatModExp _ _ _ _ hthrows
  · rw [List.length_map] at hall
    rw [ippModExp, if_neg (by rwa [List.length_map])] at hthrows
    cases mb with
    | true =>
        refine not_throws_shared (.inr ?_) hthrows
        rintro ⟨msg, hchunks⟩
        obtain ⟨c, hc, res, hchunk⟩ := Vec.foldlM_error_mem hchunks
        rw [chunks_eq] at hc
        obtain ⟨i, -, rfl⟩ := List.mem_map.mp hc
        exact not_throws_runChunk hodd (min_le_left _ _) res ⟨msg, hchunk⟩
    | false =>
        have hshared : openmp = true := hpath.resolve_right (by simpa using hzero)
        rcases hthrows.of_bind with hloop | ⟨_, -, hthrows⟩
        · exact not_throws_intLoop _ hloop
        · exact not_throws_shared (.inl hshared) hthrows
  · iterate 6 obtain ⟨_, -, hthrows⟩ := hthrows.of_bind.resolve_left (not_throws_slice _ _ _)
    obtain ⟨_, -, hthrows⟩ := hthrows.of_bind.resolve_left (not_throws_terminating _)
    obtain ⟨_, -, hthrows⟩ := hthrows.of_bind.resolve_left (not_throws_terminating _)
    obtain ⟨_, -, hthrows⟩ := hthrows.of_bind.resolve_left (not_throws_copyTo _ _ _)
    exact not_throws_copyTo _ _ _ hthrows

end

/-! ### The loop over single numbers -/

/-- A loop whose rounds return or throw throws as soon as one of them does. -/
theorem throws_mapM {α β : Type} {f : α → Result β} : ∀ {xs : List α},
    (∀ x ∈ xs, (∃ y, f x = .ok y) ∨ Throws (f x)) → (∃ x ∈ xs, Throws (f x)) →
      Throws (xs.mapM f) := by
  intro xs
  induction xs with
  | nil =>
      intro _ hsome
      obtain ⟨x, hx, -⟩ := hsome
      cases hx
  | cons x rest ih =>
      intro hall hsome
      rw [List.mapM_cons]
      rcases hall x List.mem_cons_self with ⟨y, hy⟩ | hthrows
      · have hrest : ∃ z ∈ rest, Throws (f z) := by
          obtain ⟨z, hz, hthrows⟩ := hsome
          rcases List.mem_cons.mp hz with rfl | hz
          · rw [hy] at hthrows
            exact absurd hthrows not_throws_ok
          · exact ⟨z, hz, hthrows⟩
        rw [hy, Result.bind_ok]
        exact (ih (fun z hz => hall z (List.mem_cons_of_mem x hz)) hrest).bind _
      · exact hthrows.bind _

/-- So does the loop over single numbers, in a build without OpenMP. -/
theorem throws_ippSBModExpWrapper {en : Engines} (hserial : en.openmp = false) {ts : List Triple}
    (hlen : ts.length < 2 ^ 31)
    (hall : ∀ t ∈ ts, (∃ r, ippSBModExp en.mont t.1 t.2.1 t.2.2 = .ok r) ∨
      Throws (ippSBModExp en.mont t.1 t.2.1 t.2.2))
    (hsome : ∃ t ∈ ts, Throws (ippSBModExp en.mont t.1 t.2.1 t.2.2)) :
    Throws (en.ippSBModExpWrapper (bases ts) (exps ts) (mods ts)) := by
  have hround : ∀ i (hi : i < ts.length), (do
      let b ← elemAt (bases ts) i
      let e ← elemAt (exps ts) i
      let m ← elemAt (mods ts) i
      ippSBModExp en.mont b e m) = ippSBModExp en.mont ts[i].1 ts[i].2.1 ts[i].2.2 := by
    intro i hi
    rw [elemAt_eq (by simpa using hi), Result.bind_ok, elemAt_eq (by simpa using hi),
      Result.bind_ok, elemAt_eq (by simpa using hi), Result.bind_ok]
    simp only [List.getElem_map]
  rw [ippSBModExpWrapper, List.length_map, intLoop_ok hlen, Result.bind_ok, hserial, shared,
    if_neg (by decide)]
  refine throws_mapM (fun i hi => ?_) ?_
  · have hi' := List.mem_range.mp hi
    rw [hround i hi']
    exact hall _ (List.getElem_mem hi')
  · obtain ⟨t, ht, hthrows⟩ := hsome
    obtain ⟨i, hi, rfl⟩ := List.getElem_of_mem ht
    refine ⟨i, List.mem_range.mpr hi, ?_⟩
    rw [hround i hi]
    exact hthrows

/-! ### What the device asks -/

/-- An operand that has been written has no more words than the buffer. -/
theorem words_of_operand {length : ℕ} {x : ℤ} {msg : String} {data : List ℕ}
    (hok : operand length x msg = .ok data) : bitsizeWord (bitLen x) * 4 ≤ length := by
  obtain ⟨⟨ret, bytes⟩, hbin, hret⟩ := Result.of_bind_ok hok
  cases ret with
  | true => exact words_of_toBin hbin
  | false => cases hret

section
variable {en : Engines} {bits b : ℕ} {ts : List Triple}

/-- What has come back from the device had exponents with the words of the modulus. -/
theorem sendable_of_ok (h : en.ipp.Lawful) (hadm : ∀ t ∈ ts, Admissible t.1 t.2.1 t.2.2)
    (hmod : ∀ t ∈ ts, bitLen t.2.2 = bits) (hne : ts ≠ []) (hlen : ts.length + b ≤ 2 ^ 32)
    (hb : 0 < b) {rs : List ℤ}
    (hok : en.heQatBnModExp_MT (bases ts) (exps ts) (mods ts) b = .ok rs) :
    Sendable bits ts where
  admissible := hadm
  mod_bits := hmod
  exp_words := by
    intro t ht
    rw [heQatBnModExp_MT, qatBatches_slices h hadm hmod hne (by omega) hb] at hok
    obtain ⟨_, -, hslices⟩ := Result.of_bind_ok hok
    obtain ⟨i, hi, rfl⟩ := List.getElem_of_mem ht
    have hi' : i ∈ worked (slicesMT ts.length b) := by
      rw [worked_slicesMT hlen (List.length_pos_iff.mpr hne) hb]
      exact List.mem_range.mpr hi
    obtain ⟨indices, hrow, hindex⟩ := List.mem_flatten.mp hi'
    obtain ⟨s, hs, rfl⟩ := List.mem_map.mp hrow
    obtain ⟨rem, rem', hslice⟩ := Vec.foldlM_ok_mem hslices s hs
    obtain ⟨outs, houts, -⟩ := Result.of_bind_ok hslice
    obtain ⟨out, -, hreq⟩ := (Vec.mapM_ok_mem houts).1 i hindex
    obtain ⟨_, -, hreq⟩ := Result.of_bind_ok hreq
    obtain ⟨_, -, hreq⟩ := Result.of_bind_ok hreq
    obtain ⟨e, he, hreq⟩ := Result.of_bind_ok hreq
    obtain ⟨_, hexp, -⟩ := Result.of_bind_ok hreq
    rw [elemAt_eq (by simpa using hi), List.getElem_map] at he
    cases he
    exact Nat.le_of_mul_le_mul_right (words_of_operand hexp) (by decide)

end

/-! ### What the lanes ask -/

end Engines

/-- A function that refuses exponents longer than its moduli. -/
def Mbx.strict : Mbx where
  lane base exp expBits mod modBits :=
    if expBits ≤ modBits then Mbx.reference.lane base exp expBits mod modBits else (1, [])

theorem Mbx.strict_lawful : Mbx.strict.Lawful where
  lane_ok b e m expBits modBits hodd hb hm he hle := by
    show (if expBits ≤ modBits then Mbx.reference.lane _ _ _ _ _ else (1, [])) = _
    rw [if_pos hle]
    exact Mbx.reference_lane hodd hb hm he

/-- A call that succeeds has been given no such exponent. -/
theorem expBits_le_of_ok {ts : List Triple} (hne : ts ≠ []) {rs : List ℤ}
    (hok : ippMBModExp Mbx.strict (bases ts) (exps ts) (mods ts) = .ok rs) :
    expBits ts ≤ modBits ts := by
  obtain ⟨_, -, hok⟩ := Result.of_bind_ok hok
  obtain ⟨_, -, hok⟩ := Result.of_bind_ok hok
  obtain ⟨baseBuff, -, hok⟩ := Result.of_bind_ok hok
  obtain ⟨expBuff, -, hok⟩ := Result.of_bind_ok hok
  obtain ⟨outs, houts, hok⟩ := Result.of_bind_ok hok
  obtain ⟨_, hchecks, -⟩ := Result.of_bind_ok hok
  have hfirst : 0 ∈ List.range (bases ts).length := by
    rw [List.mem_range, List.length_map]
    exact List.length_pos_iff.mpr hne
  obtain ⟨out, hout, hlane⟩ := (Vec.mapM_ok_mem houts).1 0 hfirst
  obtain ⟨_, -, hcheck⟩ := (Vec.mapM_ok_mem hchecks).1 out hout
  have hstatus : out.1 = 0 := of_decide_eq_true (ok_of_errorCheck hcheck)
  obtain ⟨b, -, hlane⟩ := Result.of_bind_ok hlane
  obtain ⟨e, -, hlane⟩ := Result.of_bind_ok hlane
  obtain ⟨m, -, hlane⟩ := Result.of_bind_ok hlane
  obtain ⟨ms, -, hlane⟩ := Result.of_bind_ok hlane
  cases hlane
  by_contra hlong
  change (if expBits ts ≤ modBits ts then Mbx.reference.lane _ _ _ _ _ else ((1 : ℤ), [])).1 = 0
    at hstatus
  rw [if_neg hlong] at hstatus
  cases hstatus

namespace Engines

/-- Every triple is in the chunk of its index. -/
theorem exists_chunk {ts : List Triple} {t : Triple} (ht : t ∈ ts) :
    ∃ c ∈ chunks ts.length, c.1 + c.2 ≤ ts.length ∧ t ∈ (ts.drop c.1).take c.2 := by
  obtain ⟨i, hi, rfl⟩ := List.getElem_of_mem ht
  refine ⟨(i / 8 * 8, min 8 (ts.length - i / 8 * 8)), ?_, by omega, ?_⟩
  · rw [chunks_eq]
    exact List.mem_map_of_mem (List.mem_range.mpr (by omega))
  · have hlt : i - i / 8 * 8
        < ((ts.drop (i / 8 * 8)).take (min 8 (ts.length - i / 8 * 8))).length := by
      rw [List.length_take, List.length_drop]
      omega
    have hget : ((ts.drop (i / 8 * 8)).take (min 8 (ts.length - i / 8 * 8)))[i - i / 8 * 8]
        = ts[i] := by
      rw [List.getElem_take, List.getElem_drop]
      congr 1
      omega
    exact hget ▸ List.getElem_mem hlt

/-- The engines of a build with the strict multi-buffer function. -/
def strict (ipp : Ipp) (openmp : Bool) : Engines :=
  { reference with ipp := ipp, mbx := Mbx.strict, openmp := openmp }

theorem strict_lawful {ipp : Ipp} (h : ipp.Lawful) (openmp : Bool) : (strict ipp openmp).Lawful :=
  ⟨h, ⟨montRadix, Mont.reference_lawful⟩, Mbx.strict_lawful, Qat.reference_lawful⟩

section
variable {ipp : Ipp} {bits : ℕ} {ts : List Triple} {openmp : Bool}

/-- Chunks that come back had no exponent longer than the moduli. -/
theorem exp_bits_of_ok (hmod : ∀ t ∈ ts, bitLen t.2.2 = bits) {rs : List ℤ}
    (hok : (strict ipp openmp).ippMBModExpWrapper (bases ts) (exps ts) (mods ts) = .ok rs) :
    ∀ t ∈ ts, bitLen t.2.1 ≤ bits := by
  intro t ht
  obtain ⟨c, hc, hroom, hpart⟩ := exists_chunk ht
  rw [ippMBModExpWrapper, List.length_map] at hok
  obtain ⟨res, res', hchunk⟩ := Vec.foldlM_ok_mem (of_shared hok) c hc
  rw [runChunk, slice_map _ hroom, Result.bind_ok, slice_map _ hroom, Result.bind_ok,
    slice_map _ hroom, Result.bind_ok] at hchunk
  obtain ⟨tmp, hcall, -⟩ := Result.of_bind_ok hchunk
  have hle := expBits_le_of_ok (List.ne_nil_of_mem hpart) hcall
  have hexp : bitLen t.2.1 ≤ expBits ((ts.drop c.1).take c.2) :=
    bitLen_le_maxBits (List.mem_map_of_mem hpart)
  have hbits : modBits ((ts.drop c.1).take c.2) ≤ bits := maxBits_le (laneBits_le fun m hm => by
    obtain ⟨u, hu, rfl⟩ := List.mem_map.mp hm
    exact (hmod u (List.mem_of_mem_drop (List.mem_of_mem_take hu))).le)
  omega

/-! ### Both parts -/

/-- When a vector has come back, both of its parts have. -/
theorem parts_of_ok {en : Engines} {mb : Bool} {k : ℕ} (hk : k ≤ ts.length) {rs : List ℤ}
    (hok : en.modExp mb k (bases ts) (exps ts) (mods ts) = .ok rs) :
    (0 < k →
      ∃ r, en.qatModExp (bases (ts.take k)) (exps (ts.take k)) (mods (ts.take k)) = .ok r) ∧
    (k < ts.length →
      ∃ r, en.ippModExp mb (bases (ts.drop k)) (exps (ts.drop k)) (mods (ts.drop k)) = .ok r) := by
  by_cases hall : k = ts.length
  · rw [modExp, if_pos (by rw [List.length_map, hall])] at hok
    rw [hall, List.take_length]
    exact ⟨fun _ => ⟨rs, hok⟩, fun hlt => absurd hlt (lt_irrefl _)⟩
  by_cases hzero : k = 0
  · subst hzero
    rw [modExp, if_neg (by rwa [List.length_map]), if_pos rfl] at hok
    exact ⟨fun hlt => absurd hlt (lt_irrefl _), fun _ => ⟨rs, hok⟩⟩
  rw [modExp_hybrid (by omega) (by omega)] at hok
  obtain ⟨qatRes, hqat, hok⟩ := Result.of_bind_ok hok
  obtain ⟨ippRes, hipp, -⟩ := Result.of_bind_ok hok
  exact ⟨fun _ => ⟨qatRes, of_terminating hqat⟩, fun _ => ⟨ippRes, of_terminating hipp⟩⟩

/-- A vector that comes back from the strict engines has been served. -/
theorem served_of_ok (h : ipp.Lawful) (hadm : ∀ t ∈ ts, Admissible t.1 t.2.1 t.2.2)
    (hmod : ∀ t ∈ ts, bitLen t.2.2 = bits) {mb : Bool} {k : ℕ} (hk : k ≤ ts.length)
    (hcount : k + qatModexpBatchSize ≤ 2 ^ 32) {rs : List ℤ}
    (hok : (strict ipp openmp).modExp mb k (bases ts) (exps ts) (mods ts) = .ok rs) :
    Served mb bits k ts := by
  obtain ⟨hqat, hipp⟩ := parts_of_ok hk hok
  have hlen : (ts.take k).length = k := List.length_take_of_le hk
  have hsend : Sendable bits (ts.take k) ∧
      ∀ t ∈ ts.take k, Readable (bitsizeWord bits) t.power.natAbs := by
    by_cases hzero : k = 0
    · subst hzero
      rw [List.take_zero]
      exact ⟨⟨nofun, nofun, nofun⟩, nofun⟩
    obtain ⟨r, hr⟩ := hqat (Nat.pos_of_ne_zero hzero)
    have hne : ts.take k ≠ [] := List.ne_nil_of_length_pos (by omega)
    have hs := sendable_of_ok h (fun t ht => hadm t (List.mem_of_mem_take ht))
      (fun t ht => hmod t (List.mem_of_mem_take ht)) hne (hlen.symm ▸ hcount) (by decide) hr
    exact ⟨hs, readable_of_ok (strict_lawful h openmp) hs hne (hlen.symm ▸ hcount) (by decide) hr⟩
  have hback : ∀ t ∈ ts.drop k, t ∈ ts := fun t ht => List.mem_of_mem_drop ht
  refine ⟨hsend.1, hsend.2, fun t ht => hadm t (hback t ht), ?_, ?_⟩
  · rintro rfl hone
    refine ⟨fun t ht => hadm t (hback t ht), fun t ht => hmod t (hback t ht), ?_⟩
    by_cases hlt : k < ts.length
    · obtain ⟨r, hr⟩ := hipp hlt
      rw [ippModExp, if_neg (by rwa [List.length_map]), if_pos rfl] at hr
      exact exp_bits_of_ok (fun t ht => hmod t (hback t ht)) hr
    · rw [List.drop_of_length_le (by omega)]
      nofun
  · rintro rfl
    by_cases hlt : k < ts.length
    · by_cases hone : (ts.drop k).length = 1
      · rw [hone]
        decide
      obtain ⟨r, hr⟩ := hipp hlt
      rw [ippModExp, if_neg (by rwa [List.length_map]), if_neg (by decide)] at hr
      have hloop := lt_of_intLoop hr
      rwa [List.length_map] at hloop
    · rw [List.drop_of_length_le (by omega)]
      decide

end

end Engines

end Ipcl
