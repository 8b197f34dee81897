/-
Lanes that keep to themselves.

The regions of a buffer have the words of the longest modulus, what is copied into them
has the words of the base or the exponent, and the moduli are read where they are
stored.  Nothing compares these lengths.  As long as every base and exponent fits a
region and every modulus has as many words, a lane is what the single-buffer function
computes.  A longer operand is copied into the region of the next lane, and a modulus
with fewer words is read past its end.

The exponentiation itself is a parameter, and the law asks for whatever conforms to its
documentation.
-/
import Ipcl.Proofs.MultiBuffer

namespace Ipcl

open BigNumber

section
variable (mbx : Mbx) (mont : Mont) (ts : List Triple)

/-- Bases and exponents that are not negative and odd moduli, of any size. -/
structure OddTriples : Prop where
  base_nonneg : ∀ t ∈ ts, 0 ≤ t.1
  exp_nonneg : ∀ t ∈ ts, 0 ≤ t.2.1
  mod_odd : ∀ t ∈ ts, Odd t.2.2

/-- Every copy ends where the next region starts, every modulus can be read for a whole
region, and a lane returns what the single-buffer function does. -/
structure KeepsApart : Prop where
  bases_inside : ∀ i (hi : i < ts.length),
    i * laneWords ts + (num2vec ts[i].1).length ≤ (i + 1) * laneWords ts
  exps_inside : ∀ i (hi : i < ts.length),
    i * laneWords ts + (num2vec ts[i].2.1).length ≤ (i + 1) * laneWords ts
  mods_readable : ∀ t ∈ ts,
    slice (stored t.2.2) 0 (laneWords ts) = .ok (lane (laneWords ts) t.2.2)
  same_as_single : ∀ i (hi : i < ts.length) r,
    ippSBModExp mont ts[i].1 ts[i].2.1 ts[i].2.2 = .ok r →
      ∃ rs, ippMBModExp mbx (bases ts) (exps ts) (mods ts) = .ok rs ∧ rs[i]? = some r

/-- The call throws, or its lanes keep apart. -/
def Isolated : Prop :=
  Throws (ippMBModExp mbx (bases ts) (exps ts) (mods ts)) ∨ KeepsApart mbx mont ts

/-- Whatever conforms to the documentation, the lanes are isolated. -/
def LaneIsolation : Prop :=
  ∀ (mbx : Mbx) (mont : Mont) (radix : ℕ → ℤ), mbx.Sound → mont.Lawful radix → mont.Refuses →
    Isolated mbx mont ts

end

/-! ### The single-buffer function -/

section
variable {mont : Mont} {radix : ℕ → ℤ} {b e m r : ℤ}

/-- The sign of the modulus plays no part. -/
theorem ippSBModExp_natAbs (mont : Mont) (b e m : ℤ) :
    ippSBModExp mont b e m.natAbs = ippSBModExp mont b e m := rfl

/-- What the single-buffer function returns is the power, and its base is a residue. -/
theorem power_of_single (hmont : mont.Lawful radix) (href : mont.Refuses) (hb : 0 ≤ b)
    (he : 0 ≤ e) (hm : Odd m) (hok : ippSBModExp mont b e m = .ok r) :
    Admissible b e m.natAbs ∧ r = powMod b e m.natAbs := by
  have hodd : Odd m.natAbs := Int.natAbs_odd.mpr hm
  have hlt : b < m.natAbs := by
    by_contra hge
    have hwords : 0 < bitsizeWord (bitLen m) := by
      have := bitLen_pos m
      unfold bitsizeWord
      omega
    have hform := href.form_range m.natAbs b (not_lt.mp hge)
    rw [ippSBModExp] at hok
    simp only [hmont.getSize_ok _ hwords, hmont.init_ok _ hwords, hmont.set_ok _ hodd,
      decide_true, errorCheck_true, Result.bind_ok, decide_eq_false hform, errorCheck_false,
      Result.bind_error] at hok
    cases hok
  have hadm : Admissible b e m.natAbs := ⟨by exact_mod_cast hodd, hb, hlt, he⟩
  rw [← ippSBModExp_natAbs, ippSBModExp_eq hmont hadm] at hok
  exact ⟨hadm, (Except.ok.inj hok).symm⟩

end

/-! ### Where there is room -/

section
variable {mbx : Mbx} {mont : Mont} {radix : ℕ → ℤ} {ts : List Triple}

/-- A lane that reports success has the power in its words. -/
theorem laneOut_sound (hmbx : mbx.Sound) {t : Triple} (ht : t ∈ ts)
    (hadm : Admissible t.1 t.2.1 t.2.2.natAbs) (hok : (laneOut mbx ts t).1 = 0) :
    (laneOut mbx ts t).2 = lane (laneWords ts) (powMod t.1 t.2.1 t.2.2.natAbs) := by
  have h0 := hadm.base_nonneg
  have h1 := hadm.base_lt
  have hodd : Odd t.2.2.natAbs := by exact_mod_cast hadm.odd
  have hmod : t.2.2.natAbs < 2 ^ modBits ts :=
    (natAbs_lt_two_pow_bitLen t.2.2).trans_le
      (Nat.pow_le_pow_right (by simp) (bitLen_le_maxBits (List.mem_map_of_mem ht)))
  have hexp : t.2.1.natAbs < 2 ^ expBits ts :=
    (natAbs_lt_two_pow_bitLen t.2.1).trans_le
      (Nat.pow_le_pow_right (by simp) (bitLen_le_maxBits (List.mem_map_of_mem ht)))
  have hlane := hmbx.lane_exact t.1.natAbs t.2.1.natAbs t.2.2.natAbs (expBits ts) (modBits ts)
    hodd (by omega) hmod hexp hok
  have hpow := power_natAbs (t := (t.1, t.2.1, (t.2.2.natAbs : ℤ))) hadm
  rw [Int.natAbs_natCast] at hpow
  rw [lane, show powMod t.1 t.2.1 t.2.2.natAbs = _ from hpow, Int.natAbs_natCast]
  exact hlane

/-- With room for every operand a call throws, or every lane has succeeded and its words
are the result. -/
theorem ippMBModExp_cases (mbx : Mbx) (hroom : RoomForLanes ts) (hne : ts ≠ [])
    (hlen : ts.length ≤ cryptoMbSize) :
    Throws (ippMBModExp mbx (bases ts) (exps ts) (mods ts)) ∨
      (∀ t ∈ ts, (laneOut mbx ts t).1 = 0) ∧
        ippMBModExp mbx (bases ts) (exps ts) (mods ts) = .ok (ts.map fun t =>
          ((ofWords ((laneOut mbx ts t).2.take (bitsizeWord (modBits ts))) : ℕ) : ℤ)) := by
  rw [ippMBModExp_lanes hroom hne hlen]
  cases hchecks : (ts.map (laneOut mbx ts)).mapM fun out => errorCheck (out.1 = 0)
      ("ippMultiBuffExp: error multi buffered exp modules, error code = " ++ toString out.1) with
  | error e =>
      obtain ⟨out, -, hout⟩ := Vec.mapM_error_mem hchecks
      obtain ⟨msg, rfl⟩ := throws_of_errorCheck hout
      exact .inl ⟨msg, rfl⟩
  | ok units =>
      refine .inr ⟨fun t ht => ?_, ?_⟩
      · obtain ⟨u, -, hu⟩ := (Vec.mapM_ok_mem hchecks).1 _ (List.mem_map_of_mem ht)
        exact of_decide_eq_true (ok_of_errorCheck hu)
      · rw [Result.bind_ok, List.map_map]
        rfl

/-- With room for every operand the lanes are isolated. -/
theorem isolated_of_room (hmbx : mbx.Sound) (hmont : mont.Lawful radix) (href : mont.Refuses)
    (hodd : OddTriples ts) (hne : ts ≠ []) (hlen : ts.length ≤ cryptoMbSize)
    (hroom : RoomForLanes ts) : Isolated mbx mont ts := by
  rcases ippMBModExp_cases mbx hroom hne hlen with hthrows | ⟨hstatus, hok⟩
  · exact .inl hthrows
  right
  refine ⟨?_, ?_, ?_, ?_⟩
  · intro i hi
    rw [length_num2vec, Nat.succ_mul]
    have := hroom.base_fits _ (List.getElem_mem hi)
    omega
  · intro i hi
    rw [length_num2vec, Nat.succ_mul]
    have := hroom.exp_fits _ (List.getElem_mem hi)
    omega
  · intro t ht
    exact slice_stored (hroom.mod_fills t ht ▸ le_rfl)
  · intro i hi r hr
    refine ⟨_, hok, ?_⟩
    have hmem := List.getElem_mem hi
    obtain ⟨hadm, rfl⟩ := power_of_single hmont href (hodd.base_nonneg _ hmem)
      (hodd.exp_nonneg _ hmem) (hodd.mod_odd _ hmem) hr
    have hwords := laneOut_sound hmbx hmem hadm (hstatus _ hmem)
    have h0 := powMod_nonneg (b := ts[i].1) (e := ts[i].2.1) hadm.mod_pos
    have h1 := powMod_lt (b := ts[i].1) (e := ts[i].2.1) hadm.mod_pos
    have hbits : bitLen (powMod ts[i].1 ts[i].2.1 ts[i].2.2.natAbs) ≤ modBits ts :=
      (bitLen_le_of_natAbs_le (by omega)).trans
        (bitLen_le_maxBits (List.mem_map_of_mem hmem))
    rw [List.getElem?_map, List.getElem?_eq_getElem hi, Option.map_some, hwords,
      ofWords_take_lane h0 hbits]

end

/-! ### Where there is not -/

section
variable {mont : Mont} {ts : List Triple}

theorem not_throws_elemAt {α : Type} (xs : List α) (i : ℕ) : ¬ Throws (elemAt xs i) := by
  unfold elemAt
  cases xs[i]? with
  | some x => exact not_throws_ok
  | none => exact not_throws_undefined

theorem not_throws_slice {α : Type} (buff : List α) (off n : ℕ) :
    ¬ Throws (slice buff off n) := by
  unfold slice
  split_ifs
  · exact not_throws_ok
  · exact not_throws_undefined

theorem room_of_slice {α : Type} {buff xs : List α} {off n : ℕ} (h : slice buff off n = .ok xs) :
    off + n ≤ buff.length := by
  by_contra hc
  rw [slice, if_neg hc] at h
  cases h

theorem not_throws_copyTo {α : Type} (buff : List α) (off : ℕ) (src : List α) :
    ¬ Throws (copyTo buff off src) := by
  unfold copyTo
  split_ifs
  · exact not_throws_ok
  · exact not_throws_undefined

theorem not_throws_copyLanes (words : ℕ) (xs : List ℤ) : ¬ Throws (copyLanes words xs) := by
  intro hthrows
  obtain ⟨msg, hmsg⟩ := hthrows
  obtain ⟨i, -, buff, hround⟩ := Vec.foldlM_error_mem hmsg
  rcases Throws.of_bind ⟨msg, hround⟩ with helem | ⟨x, -, hcopy⟩
  · exact not_throws_elemAt _ _ helem
  · exact not_throws_copyTo _ _ _ hcopy

theorem not_throws_runLane (mbx : Mbx) (baseBuff expBuff : List ℕ) (mod : List ℤ)
    (expBits modBits i : ℕ) : ¬ Throws (runLane mbx baseBuff expBuff mod expBits modBits i) := by
  intro hthrows
  obtain ⟨b, -, hthrows⟩ := hthrows.of_bind.resolve_left (not_throws_slice _ _ _)
  obtain ⟨e, -, hthrows⟩ := hthrows.of_bind.resolve_left (not_throws_slice _ _ _)
  obtain ⟨m, -, hthrows⟩ := hthrows.of_bind.resolve_left (not_throws_elemAt _ _)
  obtain ⟨ms, -, hthrows⟩ := hthrows.of_bind.resolve_left (not_throws_slice _ _ _)
  exact not_throws_ok hthrows

/-- A lane of the reference function that returns reports success. -/
theorem status_of_runLane (hodd : ∀ t ∈ ts, Odd t.2.2) {baseBuff expBuff : List ℕ} {i : ℕ}
    {out : ℤ × List ℕ}
    (hok : runLane Mbx.reference baseBuff expBuff (mods ts) (expBits ts) (modBits ts) i = .ok out) :
    out.1 = 0 := by
  obtain ⟨b, -, hok⟩ := Result.of_bind_ok hok
  obtain ⟨e, -, hok⟩ := Result.of_bind_ok hok
  obtain ⟨m, hm, hok⟩ := Result.of_bind_ok hok
  obtain ⟨ms, hms, hok⟩ := Result.of_bind_ok hok
  cases hok
  have hmem : m ∈ mods ts := mem_of_elemAt hm
  have hlt : m.natAbs < 2 ^ modBits ts := (natAbs_lt_two_pow_bitLen m).trans_le
    (Nat.pow_le_pow_right (by simp) (bitLen_le_maxBits hmem))
  have hread : ms = lane (laneWords ts) m := by
    have hroom : 0 + laneWords ts ≤ (stored m).length := room_of_slice hms
    rw [length_stored, Nat.zero_add] at hroom
    exact Except.ok.inj (hms.symm.trans (slice_stored hroom))
  obtain ⟨t, ht, rfl⟩ := List.mem_map.mp hmem
  have hone : t.2.2.natAbs % 2 = 1 := Nat.odd_iff.mp (Int.natAbs_odd.mpr (hodd t ht))
  show (if ofWords ms % 2 = 1 then (0 : ℤ) else 1) = 0
  rw [hread, lane, ofWords_fixed_dwords hlt, if_pos hone]

/-- The reference function never throws for odd moduli. -/
theorem not_throws_reference (hodd : ∀ t ∈ ts, Odd t.2.2) (hlen : ts.length ≤ cryptoMbSize) :
    ¬ Throws (ippMBModExp Mbx.reference (bases ts) (exps ts) (mods ts)) := by
  have hsizes : (((bases ts).length == (exps ts).length) && ((exps ts).length == (mods ts).length)
      && decide ((bases ts).length ≤ cryptoMbSize)) = true := by
    simp [hlen]
  intro hthrows
  rw [ippMBModExp, hsizes, errorCheck_true, Result.bind_ok] at hthrows
  obtain ⟨_, -, hthrows⟩ := hthrows.of_bind.resolve_left (not_throws_elemAt _ _)
  obtain ⟨baseBuff, -, hthrows⟩ := hthrows.of_bind.resolve_left (not_throws_copyLanes _ _)
  obtain ⟨expBuff, -, hthrows⟩ := hthrows.of_bind.resolve_left (not_throws_copyLanes _ _)
  rcases hthrows.of_bind with ⟨msg, houts⟩ | ⟨outs, houts, hthrows⟩
  · obtain ⟨i, -, hlane⟩ := Vec.mapM_error_mem houts
    exact not_throws_runLane _ _ _ _ _ _ _ ⟨msg, hlane⟩
  rcases hthrows.of_bind with ⟨msg, hchecks⟩ | ⟨_, -, hthrows⟩
  · obtain ⟨out, hout, hcheck⟩ := Vec.mapM_error_mem hchecks
    obtain ⟨i, -, hlane⟩ := (Vec.mapM_ok_mem houts).2 out hout
    rw [status_of_runLane hodd hlane] at hcheck
    cases hcheck
  · exact not_throws_ok hthrows

/-- Lanes that keep apart have room. -/
theorem KeepsApart.room {mbx : Mbx} (h : KeepsApart mbx mont ts) : RoomForLanes ts where
  base_fits t ht := by
    obtain ⟨i, hi, rfl⟩ := List.getElem_of_mem ht
    have := h.bases_inside i hi
    rw [length_num2vec, Nat.succ_mul] at this
    omega
  exp_fits t ht := by
    obtain ⟨i, hi, rfl⟩ := List.getElem_of_mem ht
    have := h.exps_inside i hi
    rw [length_num2vec, Nat.succ_mul] at this
    omega
  mod_fills t ht := by
    have hread := h.mods_readable t ht
    have hle : bitsizeDword (bitLen t.2.2) ≤ bitsizeDword (modBits ts) := by
      have hbits : bitLen t.2.2 ≤ modBits ts := bitLen_le_maxBits (List.mem_map_of_mem ht)
      unfold bitsizeDword
      omega
    have hroom := room_of_slice hread
    rw [length_stored, laneWords] at hroom
    omega

end

/--
**The lanes are isolated exactly when every operand has room in its own.**

A base and an exponent have at most the words of the longest modulus, rounded up to 64
bits, and every modulus has as many.
-/
theorem lane_isolation_iff {ts : List Triple} (hne : ts ≠ []) (hlen : ts.length ≤ cryptoMbSize)
    (hodd : OddTriples ts) : LaneIsolation ts ↔ RoomForLanes ts := by
  constructor
  · intro hiso
    rcases hiso Mbx.reference Mont.reference montRadix Mbx.reference_sound Mont.reference_lawful
      Mont.reference_refuses with hthrows | hapart
    · exact absurd hthrows (not_throws_reference hodd.mod_odd hlen)
    · exact hapart.room
  · intro hroom mbx mont radix hmbx hmont href
    exact isolated_of_room hmbx hmont href hodd hne hlen hroom

/-- Two lanes whose moduli differ in size but not in words. -/
theorem lane_isolation_seven_five : LaneIsolation [(3, 2, 7), (4, 3, 5)] :=
  (lane_isolation_iff (by simp) (by decide) ⟨by simp, by simp, by decide⟩).mpr
    ⟨by decide, by decide, by decide⟩

/-- A base that is longer than its modulus runs into the next lane: the power of 1 comes out
as `2 ^ 32 + 1`. -/
theorem not_lane_isolation_long_base :
    ¬ LaneIsolation [(2 ^ 96, 1, 2 ^ 33 + 1), (1, 1, 2 ^ 33 + 1)] := by
  intro hiso
  have hrun : ippMBModExp Mbx.reference [2 ^ 96, 1] [1, 1] [2 ^ 33 + 1, 2 ^ 33 + 1]
      = .ok [0, 2 ^ 32 + 1] := by decide +kernel
  have hsingle : ippSBModExp Mont.reference 1 1 (2 ^ 33 + 1) = .ok 1 :=
    ippSBModExp_eq Mont.reference_lawful (by decide)
  rcases hiso Mbx.reference Mont.reference montRadix Mbx.reference_sound Mont.reference_lawful
    Mont.reference_refuses with hthrows | hapart
  · obtain ⟨msg, hmsg⟩ := hthrows
    cases hrun.symm.trans hmsg
  · obtain ⟨rs, hok, hlane⟩ := hapart.same_as_single 1 (by decide) 1 hsingle
    cases hrun.symm.trans hok
    revert hlane
    decide

end Ipcl
