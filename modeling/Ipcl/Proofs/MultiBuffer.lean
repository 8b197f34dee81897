/-
Eight lanes side by side.

The operands of a call of the multi-buffer function are copied into one buffer, a
lane of the same number of words for each.  What has to hold is that a lane read
back is the number it was given, filled up with zeros: the next lane must not start
too early, and what is copied must not run into it.  With moduli of one bit length
and exponents that are not longer, every number fits its lane, and up to eight
triples are raised at once.
-/
import Ipcl.ModExp.Batch

namespace Ipcl

open BigNumber

/-! ### Triples -/

/-- Admissible operands, moduli of one bit length and exponents that are not longer. -/
structure Uniform (bits : ℕ) (ts : List Triple) : Prop where
  admissible : ∀ t ∈ ts, Admissible t.1 t.2.1 t.2.2
  mod_bits : ∀ t ∈ ts, bitLen t.2.2 = bits
  exp_bits : ∀ t ∈ ts, bitLen t.2.1 ≤ bits

theorem Uniform.iff_checks {bits : ℕ} {ts : List Triple} : Uniform bits ts ↔
    ∀ t ∈ ts, Admissible t.1 t.2.1 t.2.2 ∧ bitLen t.2.2 = bits ∧ bitLen t.2.1 ≤ bits := by
  constructor
  · intro hu t ht
    exact ⟨hu.admissible t ht, hu.mod_bits t ht, hu.exp_bits t ht⟩
  · intro hall
    exact ⟨fun t ht => (hall t ht).1, fun t ht => (hall t ht).2.1, fun t ht => (hall t ht).2.2⟩

instance (bits : ℕ) (ts : List Triple) : Decidable (Uniform bits ts) :=
  decidable_of_iff _ Uniform.iff_checks.symm

theorem Uniform.subset {bits : ℕ} {ts us : List Triple} (hu : Uniform bits ts)
    (hsub : us ⊆ ts) : Uniform bits us where
  admissible t ht := hu.admissible t (hsub ht)
  mod_bits t ht := hu.mod_bits t (hsub ht)
  exp_bits t ht := hu.exp_bits t (hsub ht)

section
variable {bits : ℕ} {t : Triple}

/-- A base is not longer than its modulus. -/
theorem base_bits (hadm : Admissible t.1 t.2.1 t.2.2) (hmod : bitLen t.2.2 = bits) :
    bitLen t.1 ≤ bits := by
  have h0 := hadm.base_nonneg
  have h1 := hadm.base_lt
  exact hmod ▸ bitLen_le_of_natAbs_le (by omega)

/-- The power as natural numbers, the way an engine computes it. -/
theorem power_natAbs (hadm : Admissible t.1 t.2.1 t.2.2) :
    t.power = ((t.1.natAbs ^ t.2.1.natAbs % t.2.2.natAbs : ℕ) : ℤ) := by
  obtain ⟨b, e, m⟩ := t
  have hb := hadm.base_nonneg
  have he := hadm.exp_nonneg
  have hm := hadm.mod_pos
  obtain ⟨b, rfl⟩ := Int.eq_ofNat_of_zero_le hb
  obtain ⟨e, rfl⟩ := Int.eq_ofNat_of_zero_le he
  obtain ⟨m, rfl⟩ := Int.eq_ofNat_of_zero_le hm.le
  simp [Triple.power, powMod]

end

/-! ### Lanes of a buffer -/

/-- A number filled up to the words of a lane. -/
def lane (words : ℕ) (x : ℤ) : List ℕ := Digits.fixed (2 ^ 32) words x.natAbs

@[simp] theorem length_lane (words : ℕ) (x : ℤ) : (lane words x).length = words :=
  Digits.length_fixed _ _ _

theorem length_lanes (words : ℕ) (xs : List ℤ) :
    (xs.flatMap (lane words)).length = xs.length * words := by
  simp [List.length_flatMap, List.map_const']

/-- A lane is the words of the number and zeros. -/
theorem lane_eq {words : ℕ} {x : ℤ} (hfit : bitsizeWord (bitLen x) ≤ words) :
    lane words x = num2vec x ++ List.replicate (words - bitsizeWord (bitLen x)) 0 :=
  Digits.fixed_append_zeros (by decide) (natAbs_lt_pow_words x) hfit

/-- Copying one more number starts the next lane. -/
theorem copyTo_lane {words : ℕ} (done : List ℤ) {x : ℤ} {free : ℕ} (hlen : done.length < free)
    (hfit : bitsizeWord (bitLen x) ≤ words) :
    copyTo (done.flatMap (lane words) ++ List.replicate ((free - done.length) * words) 0)
        (done.length * words) (num2vec x)
      = .ok ((done ++ [x]).flatMap (lane words)
          ++ List.replicate ((free - (done.length + 1)) * words) 0) := by
  have hlanes := length_lanes words done
  have hsplit : (free - done.length) * words
      = words + (free - (done.length + 1)) * words := by
    rw [show free - done.length = (free - (done.length + 1)) + 1 by omega, Nat.succ_mul]
    exact Nat.add_comm _ _
  have hzeros : List.replicate (words + (free - (done.length + 1)) * words
        - bitsizeWord (bitLen x)) 0
      = List.replicate (words - bitsizeWord (bitLen x)) 0
        ++ List.replicate ((free - (done.length + 1)) * words) 0 := by
    rw [List.replicate_append_replicate]
    congr 1
    omega
  have hroom : done.length * words + (num2vec x).length
      ≤ (done.flatMap (lane words)
        ++ List.replicate ((free - done.length) * words) 0).length := by
    rw [List.length_append, hlanes, List.length_replicate, length_num2vec]
    omega
  rw [copyTo, if_pos hroom, ← hlanes, List.take_left, length_num2vec, List.drop_append,
    List.drop_of_length_le (Nat.le_add_right _ _), List.drop_replicate, hlanes, hsplit]
  simp only [List.nil_append, Nat.add_sub_cancel_left, List.flatMap_append,
    List.flatMap_singleton, lane_eq hfit, List.append_assoc]
  rw [hzeros]

/-- The filled buffer: a lane for every number, and zeros. -/
theorem copyLanes_eq {words : ℕ} (xs : List ℤ) (hlen : xs.length ≤ cryptoMbSize)
    (hfit : ∀ x ∈ xs, bitsizeWord (bitLen x) ≤ words) :
    copyLanes words xs
      = .ok (xs.flatMap (lane words)
          ++ List.replicate ((cryptoMbSize - xs.length) * words) 0) := by
  have hfill := Vec.foldlM_range_ok
    (fun i => (xs.take i).flatMap (lane words)
      ++ List.replicate ((cryptoMbSize - i) * words) 0) xs.length
    (f := fun buff i => do
      let x ← elemAt xs i
      (copyTo buff (i * words) (num2vec x) : Result (List ℕ))) (by
    intro i hi
    have htake : (xs.take i).length = i := List.length_take_of_le hi.le
    have hfree : (xs.take i).length < cryptoMbSize := by omega
    have hstep := copyTo_lane (xs.take i) hfree (hfit xs[i] (List.getElem_mem hi))
    rw [htake] at hstep
    rw [elemAt_eq hi, Result.bind_ok, hstep, List.take_append_getElem hi])
  simpa [copyLanes] using hfill

/-- Reading the start of a lane. -/
theorem slice_lane {words k : ℕ} {xs : List ℤ} {rest : List ℕ} {i : ℕ} (hi : i < xs.length)
    (hk : k ≤ words) :
    slice (xs.flatMap (lane words) ++ rest) (i * words) k
      = .ok (Digits.fixed (2 ^ 32) k xs[i].natAbs) := by
  have htake : (xs.take i).length = i := List.length_take_of_le hi.le
  have hbefore : ((xs.take i).flatMap (lane words)).length = i * words := by
    rw [length_lanes, htake]
  have hsplit : xs.flatMap (lane words) = (xs.take i).flatMap (lane words)
      ++ (lane words xs[i] ++ (xs.drop (i + 1)).flatMap (lane words)) := by
    conv_lhs => rw [← List.take_append_drop i xs, List.drop_eq_getElem_cons hi]
    rw [List.flatMap_append, List.flatMap_cons]
  have hroom : i * words + k ≤ (xs.flatMap (lane words) ++ rest).length := by
    rw [hsplit]
    simp only [List.length_append, hbefore, length_lane]
    omega
  rw [slice, if_pos hroom, hsplit, List.append_assoc, ← hbefore, List.drop_left,
    List.append_assoc, List.take_append_of_le_length (by simpa using hk), lane,
    Digits.take_fixed hk]

/-! ### The longest operand -/

theorem maxBits_le {l : List ℕ} {k : ℕ} (h : ∀ b ∈ l, b ≤ k) : maxBits l ≤ k := by
  rw [maxBits, List.foldl_eq_foldr]
  exact List.max_le_of_forall_le l k h

theorem le_maxBits {l : List ℕ} {b : ℕ} (h : b ∈ l) : b ≤ maxBits l := by
  rw [maxBits, List.foldl_eq_foldr]
  exact List.le_max_of_le h le_rfl

theorem laneBits_le {xs : List ℤ} {k : ℕ} (h : ∀ x ∈ xs, bitLen x ≤ k) :
    ∀ b ∈ laneBits xs, b ≤ k := by
  intro b hb
  rcases List.mem_append.mp hb with hb | hb
  · obtain ⟨x, hx, rfl⟩ := List.mem_map.mp hb
    exact h x hx
  · have := List.eq_of_mem_replicate hb
    omega

theorem bitLen_le_maxBits {xs : List ℤ} {x : ℤ} (hx : x ∈ xs) :
    bitLen x ≤ maxBits (laneBits xs) :=
  le_maxBits (List.mem_append_left _ (List.mem_map_of_mem hx))

/-- One of the numbers has the longest bit length. -/
theorem exists_longest (xs : List ℤ) (hne : xs ≠ []) :
    ∃ x ∈ xs, bitLen x = maxBits (laneBits xs) := by
  obtain ⟨x, hx⟩ := List.exists_mem_of_ne_nil xs hne
  have hpos := bitLen_pos x
  have hlong := bitLen_le_maxBits hx
  by_contra hnone
  push Not at hnone
  have hshort : maxBits (laneBits xs) ≤ maxBits (laneBits xs) - 1 := by
    refine maxBits_le (laneBits_le fun y hy => ?_)
    have := bitLen_le_maxBits hy
    have := hnone y hy
    omega
  omega

/-- The longest number is found among those given, not among the unused lanes. -/
theorem findIdx_longest (xs : List ℤ) (hne : xs ≠ []) :
    (laneBits xs).findIdx (· == maxBits (laneBits xs)) < xs.length := by
  obtain ⟨x, hx, hlong⟩ := exists_longest xs hne
  have hfound : (xs.map bitLen).findIdx (· == maxBits (laneBits xs)) < (xs.map bitLen).length :=
    List.findIdx_lt_length_of_exists ⟨bitLen x, List.mem_map_of_mem hx, by simp [hlong]⟩
  generalize maxBits (laneBits xs) = longest at hfound ⊢
  rw [laneBits, List.findIdx_append, if_pos hfound]
  simpa using hfound

/-! ### Operands that keep to their lanes -/

section
variable (ts : List Triple)

abbrev modBits : ℕ := maxBits (laneBits (mods ts))

abbrev expBits : ℕ := maxBits (laneBits (exps ts))

/-- The words of the region a lane has in a buffer: those of the longest modulus. -/
abbrev laneWords : ℕ := 2 * bitsizeDword (modBits ts)

/-- Bases and exponents fit the region of a lane, and every modulus has as many words. -/
structure RoomForLanes : Prop where
  base_fits : ∀ t ∈ ts, bitsizeWord (bitLen t.1) ≤ laneWords ts
  exp_fits : ∀ t ∈ ts, bitsizeWord (bitLen t.2.1) ≤ laneWords ts
  mod_fills : ∀ t ∈ ts, bitsizeDword (bitLen t.2.2) = bitsizeDword (modBits ts)

end

/-- The words a modulus is stored in. -/
def stored (m : ℤ) : List ℕ :=
  Digits.fixed (2 ^ 32) (2 * roomOf (bitsizeWord (bitLen m))) m.natAbs

theorem length_stored (m : ℤ) : (stored m).length = 2 * bitsizeDword (bitLen m) := by
  rw [stored, Digits.length_fixed]
  unfold roomOf bitsizeWord bitsizeDword
  omega

/-- A modulus that has the words of a lane is read as it is. -/
theorem slice_stored {m : ℤ} {words : ℕ} (hw : words ≤ 2 * bitsizeDword (bitLen m)) :
    slice (stored m) 0 words = .ok (lane words m) := by
  have hroom : 0 + words ≤ (stored m).length := by
    rw [length_stored]
    omega
  have hlen := length_stored m
  rw [stored, Digits.length_fixed] at hlen
  rw [slice, if_pos hroom, List.drop_zero, stored, Digits.take_fixed (by omega), lane]

/-! ### One call -/

section
variable {mbx : Mbx} {ts : List Triple}

/-- What the lane of a triple is handed, and what it returns. -/
def laneOut (mbx : Mbx) (ts : List Triple) (t : Triple) : ℤ × List ℕ :=
  mbx.lane (lane (laneWords ts) t.1) (lane (2 * bitsizeDword (expBits ts)) t.2.1) (expBits ts)
    (lane (laneWords ts) t.2.2) (modBits ts)

/-- The exponents are not longer than the region they are read from. -/
theorem RoomForLanes.expBits_le (hroom : RoomForLanes ts) :
    2 * bitsizeDword (expBits ts) ≤ laneWords ts := by
  have hle : expBits ts ≤ 32 * laneWords ts := maxBits_le (laneBits_le fun e he => by
    obtain ⟨t, ht, rfl⟩ := List.mem_map.mp he
    have := hroom.exp_fits t ht
    unfold bitsizeWord at this
    omega)
  unfold laneWords bitsizeDword at *
  omega

/-- A lane of the call, on the filled buffers. -/
theorem runLane_eq (hroom : RoomForLanes ts) {i : ℕ} (hi : i < ts.length) (rest rest' : List ℕ) :
    runLane mbx ((bases ts).flatMap (lane (laneWords ts)) ++ rest)
        ((exps ts).flatMap (lane (laneWords ts)) ++ rest') (mods ts) (expBits ts) (modBits ts) i
      = .ok (laneOut mbx ts ts[i]) := by
  have hmods : elemAt (mods ts) i = .ok ts[i].2.2 := by
    rw [elemAt_eq (by simpa using hi), List.getElem_map]
  have hread : slice (stored ts[i].2.2) 0 (laneWords ts) = _ :=
    slice_stored (by rw [hroom.mod_fills _ (List.getElem_mem hi)])
  rw [stored] at hread
  rw [runLane, slice_lane (by simpa using hi) le_rfl, Result.bind_ok,
    slice_lane (by simpa using hi) hroom.expBits_le, Result.bind_ok, hmods, Result.bind_ok,
    hread, Result.bind_ok, List.getElem_map, List.getElem_map]
  rfl

/-- Up to eight triples that keep to their lanes: the lanes run, then their statuses are
checked. -/
theorem ippMBModExp_lanes (hroom : RoomForLanes ts) (hne : ts ≠ [])
    (hlen : ts.length ≤ cryptoMbSize) :
    ippMBModExp mbx (bases ts) (exps ts) (mods ts) = (do
      let _ ← (ts.map (laneOut mbx ts)).mapM fun out => errorCheck (out.1 = 0)
        ("ippMultiBuffExp: error multi buffered exp modules, error code = " ++ toString out.1)
      pure ((ts.map (laneOut mbx ts)).map fun out =>
        ((ofWords (out.2.take (bitsizeWord (modBits ts))) : ℕ) : ℤ))) := by
  have hbaseBuff := copyLanes_eq (bases ts) (by simpa using hlen) fun x hx => by
    obtain ⟨t, ht, rfl⟩ := List.mem_map.mp hx
    exact hroom.base_fits t ht
  have hexpBuff := copyLanes_eq (exps ts) (by simpa using hlen) fun x hx => by
    obtain ⟨t, ht, rfl⟩ := List.mem_map.mp hx
    exact hroom.exp_fits t ht
  have houts : ∀ rest rest', (List.range (bases ts).length).mapM
      (runLane mbx ((bases ts).flatMap (lane (laneWords ts)) ++ rest)
        ((exps ts).flatMap (lane (laneWords ts)) ++ rest') (mods ts) (expBits ts) (modBits ts))
      = .ok (ts.map (laneOut mbx ts)) := by
    intro rest rest'
    refine Vec.mapM_range_eq_ok (by simp) fun i hi => ?_
    rw [List.length_map] at hi
    rw [List.getElem_map]
    exact runLane_eq hroom hi rest rest'
  have hsizes : (((bases ts).length == (exps ts).length) && ((exps ts).length == (mods ts).length)
      && decide ((bases ts).length ≤ cryptoMbSize)) = true := by
    simp [hlen]
  have hlongest := elemAt_eq (findIdx_longest (mods ts) (by simpa using hne))
  rw [ippMBModExp, hsizes]
  simp only [errorCheck_true, Result.bind_ok, hlongest, hbaseBuff, hexpBuff, houts]

/-- A residue, read back from its lane. -/
theorem ofWords_take_lane {bits : ℕ} {x : ℤ} (h0 : 0 ≤ x) (hx : bitLen x ≤ bits) :
    ((ofWords ((lane (2 * bitsizeDword bits) x).take (bitsizeWord bits)) : ℕ) : ℤ) = x := by
  have hwords : bitsizeWord bits ≤ 2 * bitsizeDword bits := by
    unfold bitsizeWord bitsizeDword
    omega
  have hlt : x.natAbs < (2 ^ 32) ^ bitsizeWord bits := by
    rw [← pow_mul]
    refine (natAbs_lt_two_pow_bitLen x).trans_le (Nat.pow_le_pow_right Nat.two_pos ?_)
    unfold bitsizeWord
    omega
  rw [lane, Digits.take_fixed hwords, ofWords, Digits.ofDigits_fixed_of_lt hlt,
    Int.natAbs_of_nonneg h0]

/-- The power is not longer than the modulus. -/
theorem bitLen_power_le {t : Triple} (hadm : Admissible t.1 t.2.1 t.2.2) :
    bitLen t.power ≤ bitLen t.2.2 := by
  have h0 : 0 ≤ t.power := powMod_nonneg hadm.mod_pos
  have h1 : t.power < t.2.2 := powMod_lt hadm.mod_pos
  exact bitLen_le_of_natAbs_le (by omega)

end

/-! ### Moduli of one bit length -/

section
variable {bits : ℕ} {ts : List Triple}

/-- The longest of them has it. -/
theorem Uniform.modBits_eq (hu : Uniform bits ts) (hne : ts ≠ []) : modBits ts = bits := by
  obtain ⟨x, hx, hlong⟩ := exists_longest (mods ts) (by simpa using hne)
  obtain ⟨t, ht, rfl⟩ := List.mem_map.mp hx
  rw [← hu.mod_bits t ht, hlong]

theorem Uniform.expBits_le (hu : Uniform bits ts) : expBits ts ≤ bits :=
  maxBits_le (laneBits_le fun e he => by
    obtain ⟨t, ht, rfl⟩ := List.mem_map.mp he
    exact hu.exp_bits t ht)

theorem Uniform.roomForLanes (hu : Uniform bits ts) (hne : ts ≠ []) : RoomForLanes ts := by
  have hbits := hu.modBits_eq hne
  have hfit : ∀ x : ℤ, bitLen x ≤ bits → bitsizeWord (bitLen x) ≤ laneWords ts := by
    intro x hx
    rw [laneWords, hbits]
    unfold bitsizeWord bitsizeDword
    omega
  exact {
    base_fits := fun t ht => hfit _ (base_bits (hu.admissible t ht) (hu.mod_bits t ht))
    exp_fits := fun t ht => hfit _ (hu.exp_bits t ht)
    mod_fills := fun t ht => by rw [hu.mod_bits t ht, hbits] }

variable {mbx : Mbx} (h : mbx.Lawful)
include h

/-- A lane computes the power. -/
theorem laneOut_power (hu : Uniform bits ts) (hne : ts ≠ []) {t : Triple} (ht : t ∈ ts) :
    laneOut mbx ts t = (0, lane (2 * bitsizeDword bits) t.power) := by
  have hadm := hu.admissible t ht
  have h0 := hadm.base_nonneg
  have h1 := hadm.base_lt
  have hodd : Odd t.2.2.natAbs := Int.natAbs_odd.mpr hadm.odd
  have hmodlt : t.2.2.natAbs < 2 ^ bits := hu.mod_bits t ht ▸ natAbs_lt_two_pow_bitLen t.2.2
  have hexplt : t.2.1.natAbs < 2 ^ expBits ts :=
    (natAbs_lt_two_pow_bitLen t.2.1).trans_le
      (Nat.pow_le_pow_right Nat.two_pos (bitLen_le_maxBits (List.mem_map_of_mem ht)))
  have hlane := h.lane_ok t.1.natAbs t.2.1.natAbs t.2.2.natAbs (expBits ts) bits hodd (by omega)
    hmodlt hexplt hu.expBits_le
  rw [laneOut, laneWords, hu.modBits_eq hne, lane, lane, lane, hlane, lane, power_natAbs hadm,
    Int.natAbs_natCast]

/-- Up to eight uniform triples are raised at once. -/
theorem ippMBModExp_eq (hu : Uniform bits ts) (hne : ts ≠ []) (hlen : ts.length ≤ cryptoMbSize) :
    ippMBModExp mbx (bases ts) (exps ts) (mods ts) = .ok (powers ts) := by
  have houts : ts.map (laneOut mbx ts)
      = ts.map fun t => (0, lane (2 * bitsizeDword bits) t.power) :=
    List.map_congr_left fun t ht => laneOut_power h hu hne ht
  have hchecks : ((ts.map fun t => ((0 : ℤ), lane (2 * bitsizeDword bits) t.power)).mapM
      fun out => errorCheck (out.1 = 0)
        ("ippMultiBuffExp: error multi buffered exp modules, error code = "
          ++ toString out.1)) = .ok (ts.map fun _ => ()) := by
    rw [List.mapM_map]
    exact Vec.mapM_ok ts fun _ _ => rfl
  rw [ippMBModExp_lanes (hu.roomForLanes hne) hne hlen, houts, hchecks, Result.bind_ok,
    List.map_map]
  refine congrArg Except.ok (List.map_congr_left fun t ht => ?_)
  have hadm := hu.admissible t ht
  show ((ofWords (List.take _ (lane _ t.power)) : ℕ) : ℤ) = t.power
  rw [hu.modBits_eq hne]
  exact ofWords_take_lane (powMod_nonneg hadm.mod_pos)
    (hu.mod_bits t ht ▸ bitLen_power_le hadm)

end

end Ipcl
