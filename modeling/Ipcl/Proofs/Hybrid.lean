/-
When the split of a vector works.

The ratio of a thread is one of the numbers from zero to one in every state but one: the
mode `UNDEFINED`, set by a caller, has a negative ratio, and it stays until the next
setting.  A ratio below one never gives the device more elements than there are, however
the length is rounded.  The whole ratio gives it the rounded length, and that is more for
some lengths that a `float` does not hold.
-/
import Ipcl.ModExp.Hybrid
import Ipcl.Proofs.ModExp

namespace Ipcl.Hybrid

open BigNumber Engines Rounding

/-! ### Arithmetic of a `float` -/

/-- The rounding of the type. -/
theorem nearest_single : Nearest (Binary 24 (-149)) (roundBinary 24 (-149)) :=
  nearest_roundBinary (by decide)

theorem single_one_mem : (1 : ℚ) ∈ Binary 24 (-149) :=
  ⟨1, 0, by decide, by decide, by norm_num⟩

theorem single_nat {n : ℕ} (hn : n < 2 ^ 24) : (Single.round n).val = n :=
  nearest_single.fix (natCast_mem_binary (by decide) hn)

theorem floor_le_of_le {x : ℚ} {n : ℕ} (hx : x ≤ n) : ⌊x⌋.toNat ≤ n := by
  have hfloor : ⌊x⌋ ≤ n := by
    have := Int.floor_le_floor hx
    simpa using this
  omega

/-- The whole ratio gives the device the rounded length. -/
theorem hybridQatSize_one {r : Single} (hr : r.val = 1) (n : ℕ) :
    hybridQatSize r n = ⌊(Single.round n).val⌋.toNat := by
  have hround : (Single.round (Single.round n).val).val = (Single.round n).val :=
    nearest_single.fix (Single.round n).mem
  rw [hybridQatSize, hr, one_mul, hround]

/-- A ratio below one gives the device no more than there is. -/
theorem hybridQatSize_le {r : Single} (hr1 : r.val < 1) (n : ℕ) :
    hybridQatSize r n ≤ n := by
  apply floor_le_of_le
  have hn0 : (0 : ℚ) ≤ n := Nat.cast_nonneg n
  rcases le_or_gt (Single.round n).val n with hle | hgt
  · -- the length is rounded down
    have hx0 : 0 ≤ (Single.round n).val := by
      have hmono := nearest_single.mono hn0
      rwa [nearest_single.fix zero_mem_binary] at hmono
    have hprod : r.val * (Single.round n).val ≤ (Single.round n).val :=
      mul_le_of_le_one_left hx0 hr1.le
    exact (nearest_single.le_of_le (Single.round n).mem hprod).trans hle
  · -- rounded up, and no `float` is between it and the length
    have hbig : 2 ^ 24 ≤ n := by
      by_contra hc
      exact hgt.ne' (single_nat (not_le.mp hc))
    have hpos : (2 : ℚ) ^ ((-149 : ℤ) + (24 : ℕ)) ≤ (Single.round n).val := by
      have hn : (1 : ℚ) ≤ n := by exact_mod_cast (show 1 ≤ n by omega)
      have hone : (2 : ℚ) ^ ((-149 : ℤ) + (24 : ℕ)) ≤ 1 := by norm_num
      linarith
    exact nearest_single.le_of_lt (Single.round _).mem
      (roundBinary_mul_lt (by decide) r.mem hr1 (Single.round n).mem hpos)

/-- The split leaves a vector only with the whole ratio and a length that is rounded up. -/
theorem hybridQatSize_le_iff {r : Single} (hr : r.val ≤ 1) (n : ℕ) :
    hybridQatSize r n ≤ n ↔ (r.val = 1 → ⌊(Single.round n).val⌋.toNat ≤ n) := by
  rcases hr.lt_or_eq with hlt | heq
  · exact ⟨fun _ h1 => absurd h1 hlt.ne, fun _ => hybridQatSize_le hlt n⟩
  · rw [hybridQatSize_one heq]
    exact ⟨fun hle _ => hle, fun hle => hle heq⟩

/-- The literal of a representable number. -/
theorem literal_val {x : ℚ} (h : x ∈ Binary 24 (-149)) (hdouble : x ∈ Binary 53 (-1074)) :
    (Single.literal x).val = x := by
  show roundBinary 24 (-149) (roundBinary 53 (-1074) x) = x
  rw [(nearest_roundBinary (by decide)).fix hdouble, nearest_single.fix h]

theorem ratioFull_val : HybridParams.ratioFull.val = 1 :=
  literal_val single_one_mem ⟨1, 0, by decide, by decide, by norm_num⟩

/-- Three beyond a power of two, the whole ratio gives the device one more. -/
theorem hybridQatSize_outside : hybridQatSize HybridParams.ratioFull (2 ^ 25 + 3) = 2 ^ 25 + 4 := by
  have hlog : Int.log 2 |((2 ^ 25 + 3 : ℕ) : ℚ)| = 25 := by
    rw [abs_of_nonneg (Nat.cast_nonneg _), Int.log_natCast]
    norm_num [Nat.log_eq_iff]
  have hexp : exponent 24 (-149) ((2 ^ 25 + 3 : ℕ) : ℚ) = 2 := by
    rw [exponent, hlog]
    norm_num
  have hfloor : ⌊((2 ^ 25 + 3 : ℕ) : ℚ) / 2 ^ (2 : ℤ)⌋ = 8388608 := by
    norm_num [Int.floor_eq_iff]
  have hround : (Single.round (2 ^ 25 + 3 : ℕ)).val = (2 ^ 25 + 4 : ℕ) := by
    show roundBinary 24 (-149) ((2 ^ 25 + 3 : ℕ) : ℚ) = _
    rw [roundBinary, hexp, halfEven, hfloor]
    norm_num
  rw [hybridQatSize_one ratioFull_val, hround, Int.floor_natCast]
  rfl

/-! ### The settings over a run -/

namespace HybridParams

/-- A ratio that `modExp` takes. -/
def Valid (params : HybridParams) : Prop := 0 ≤ params.ratio.val ∧ params.ratio.val ≤ 1

/-- The mode without a ratio of its own. -/
def Unset (params : HybridParams) : Prop := params.ratio.val < 0 ∧ params.mode = .undefined

theorem literal_mem_unit {x : ℚ} (h0 : 0 ≤ x) (h1 : x ≤ 1) :
    0 ≤ (Single.literal x).val ∧ (Single.literal x).val ≤ 1 := by
  have hdouble := nearest_roundBinary (p := 53) (l := -1074) (by decide)
  have hone : (1 : ℚ) ∈ Binary 53 (-1074) := ⟨1, 0, by decide, by decide, by norm_num⟩
  constructor
  · have hmono := nearest_single.mono (hdouble.mono h0)
    rwa [hdouble.fix zero_mem_binary, nearest_single.fix zero_mem_binary] at hmono
  · exact nearest_single.le_of_le single_one_mem (hdouble.le_of_le hone h1)

theorem valid_initial : initial.Valid := literal_mem_unit le_rfl zero_le_one

theorem valid_off (params : HybridParams) : params.setHybridOff.Valid :=
  literal_mem_unit le_rfl zero_le_one

theorem literal_hundred : (Single.literal 100).val = 100 :=
  literal_val ⟨100, 0, by decide, by decide, by norm_num⟩
    ⟨100, 0, by decide, by decide, by norm_num⟩

/-- The ratio of a percentage. -/
theorem scaleDown_unit {value : ℤ} (h0 : 0 ≤ value) (h1 : value ≤ 100) :
    0 ≤ (scaleDown value).val ∧ (scaleDown value).val ≤ 1 := by
  obtain ⟨n, rfl⟩ := Int.eq_ofNat_of_zero_le h0
  have hval : (Single.round ((n : ℤ) : ℚ)).val = n := single_nat (by omega)
  have hn : (n : ℚ) ≤ 100 := by exact_mod_cast h1
  have hn0 : (0 : ℚ) ≤ n := Nat.cast_nonneg n
  rw [scaleDown, hval, literal_hundred]
  constructor
  · have hmono := nearest_single.mono (show (0 : ℚ) ≤ n / 100 by linarith)
    rwa [nearest_single.fix zero_mem_binary] at hmono
  · exact nearest_single.le_of_le single_one_mem (by linarith)

/-- The ratio of the mode without one. -/
theorem scaleDown_neg_one : (scaleDown (-1)).val < 0 := by
  have hmem : (-1 : ℚ) ∈ Binary 24 (-149) := ⟨-1, 0, by decide, by decide, by norm_num⟩
  have hval : (Single.round ((-1 : ℤ) : ℚ)).val = -1 := by
    push_cast
    exact nearest_single.fix hmem
  have hbelow : (-(1 / 128) : ℚ) ∈ Binary 24 (-149) := ⟨-1, -7, by decide, by decide, by norm_num⟩
  rw [scaleDown, hval, literal_hundred]
  have hle := nearest_single.le_of_le hbelow (show (-1 / 100 : ℚ) ≤ -(1 / 128) by norm_num)
  exact hle.trans_lt (by norm_num)

theorem setHybridMode_cases (params : HybridParams) (mode : HybridMode) :
    if mode = .undefined then (params.setHybridMode mode).Unset
      else (params.setHybridMode mode).Valid := by
  cases mode with
  | undefined => exact ⟨scaleDown_neg_one, rfl⟩
  | _ => exact scaleDown_unit (by decide) (by decide)

/-- What a ratio that is taken leaves. -/
theorem setHybridRatio_ok {params params' : HybridParams} {ratio : FloatArg} {resetMode : Bool}
    (hs : params.setHybridRatio ratio resetMode = .ok params') :
    ratio.isRatio = true ∧ params'.Valid ∧
      params'.mode = if resetMode then .undefined else params.mode := by
  cases ratio with
  | nan => cases hs
  | infinity negative => cases hs
  | number x =>
      rw [setHybridRatio] at hs
      split at hs
      · next hratio =>
          cases hs
          simp only [FloatArg.isRatio, Bool.and_eq_true, decide_eq_true_eq] at hratio
          exact ⟨by simpa [FloatArg.isRatio] using hratio, ⟨hratio.2, hratio.1⟩, rfl⟩
      · cases hs

theorem setHybridRatio_error {params : HybridParams} {ratio : FloatArg} {resetMode : Bool}
    {e : Error} (hs : params.setHybridRatio ratio resetMode = .error e) :
    ratio.isRatio = false := by
  cases ratio with
  | nan => rfl
  | infinity negative => rfl
  | number x =>
      rw [setHybridRatio] at hs
      split at hs
      · cases hs
      · next hratio => simpa using hratio

/-- The operations take a special ratio under the mode `OPTIMAL` only. -/
theorem useSpecialRatio_cases {params params' : HybridParams} {special : Single} {size : ℕ}
    (hs : params.useSpecialRatio special size = .ok params') :
    params' = params ∨ params.mode = .optimal ∧ params'.Valid ∧ params'.mode = .optimal := by
  rw [useSpecialRatio] at hs
  split at hs
  · next hoptimal =>
      have hmode : params.mode = .optimal := by
        simpa [isHybridOptimal] using hoptimal
      obtain ⟨-, hvalid, hsame⟩ := setHybridRatio_ok hs
      exact .inr ⟨hmode, hvalid, hsame.trans hmode⟩
  · cases hs
    exact .inl rfl

end HybridParams

open HybridParams

/-- What a setting does to the ratio, and that the operations change it only from one valid
ratio to another. -/
inductive Effect (params : HybridParams) : Call → HybridParams → Prop where
  | unset {params'} (h : params'.Unset) :
      Effect params (.setHybridMode .undefined) params'
  | set {call params'} (hcall : call.isSetting = true)
      (hne : call ≠ .setHybridMode .undefined) (h : params'.Valid) : Effect params call params'
  | keep {call} (hcall : call.isSetting = false) : Effect params call params
  | special {call params'} (hcall : call.isSetting = false) (hmode : params.mode = .optimal)
      (h : params'.Valid) : Effect params call params'

theorem effect_special {params : HybridParams} {call : Call} {special : Single} {size : ℕ}
    {msg : String} (hcall : call.isSetting = false)
    (hperform : call.perform params
      = (errorCheck (0 < size) msg >>= fun _ => params.useSpecialRatio special size)) :
    Effect params call (call.after params) := by
  unfold Call.after
  cases hs : call.perform params with
  | error e => exact .keep hcall
  | ok params' =>
      rw [hperform] at hs
      obtain ⟨_, -, hs⟩ := Result.of_bind_ok hs
      rcases useSpecialRatio_cases hs with rfl | ⟨hmode, hvalid, -⟩
      · exact .keep hcall
      · exact .special hcall hmode hvalid

theorem after_effect (params : HybridParams) (call : Call) :
    Effect params call (call.after params) := by
  cases call with
  | setHybridRatio ratio resetMode =>
      unfold Call.after
      cases hs : (Call.setHybridRatio ratio resetMode).perform params with
      | ok params' =>
          obtain ⟨hratio, hvalid, -⟩ := setHybridRatio_ok hs
          exact .set hratio (by simp) hvalid
      | error e => exact .keep (setHybridRatio_error hs)
  | setHybridMode mode =>
      have hmode := setHybridMode_cases params mode
      by_cases hundefined : mode = .undefined
      · subst hundefined
        exact .unset hmode
      · rw [if_neg hundefined] at hmode
        exact .set rfl (by simpa using hundefined) hmode
  | setHybridOff => exact .set rfl (by simp) (valid_off params)
  | encrypt size => exact effect_special rfl rfl
  | decrypt size => exact effect_special rfl rfl
  | rawMul size =>
      unfold Call.after
      cases hs : (Call.rawMul size).perform params with
      | error e => exact .keep rfl
      | ok params' =>
          rcases useSpecialRatio_cases hs with rfl | ⟨hmode, hvalid, -⟩
          · exact .keep rfl
          · exact .special rfl hmode hvalid

theorem lastSetting_concat (calls : List Call) (call : Call) :
    lastSetting (calls ++ [call]) = if call.isSetting then some call else lastSetting calls := by
  unfold lastSetting
  rw [List.filter_append]
  by_cases hcall : call.isSetting = true
  · rw [List.filter_cons_of_pos hcall]
    simp [hcall]
  · rw [List.filter_cons_of_neg hcall]
    simp [hcall]

/-- What the settings of a thread are. -/
theorem settle_cases (calls : List Call) :
    lastSetting calls = some (.setHybridMode .undefined) ∧ (settle calls).Unset ∨
      lastSetting calls ≠ some (.setHybridMode .undefined) ∧ (settle calls).Valid := by
  induction calls using List.reverseRecOn with
  | nil => exact .inr ⟨nofun, valid_initial⟩
  | append_singleton calls call ih =>
      have hsettle : settle (calls ++ [call]) = call.after (settle calls) := by
        simp [settle]
      have heffect := after_effect (settle calls) call
      rw [hsettle, lastSetting_concat]
      generalize call.after (settle calls) = params' at heffect
      cases heffect with
      | unset h => exact .inl ⟨rfl, h⟩
      | set hcall hne h =>
          refine .inr ⟨?_, h⟩
          rw [if_pos hcall]
          simpa using hne
      | keep hcall =>
          rw [hcall]
          exact ih
      | special hcall hmode h =>
          rw [hcall]
          refine .inr ⟨?_, h⟩
          rcases ih with ⟨-, -, hundefined⟩ | ⟨hne, -⟩
          · rw [hmode] at hundefined
            cases hundefined
          · exact hne

theorem valid_iff (calls : List Call) :
    (settle calls).Valid ↔ lastSetting calls ≠ some (.setHybridMode .undefined) := by
  rcases settle_cases calls with ⟨hlast, hunset, -⟩ | ⟨hlast, hvalid⟩
  · exact ⟨fun hvalid => absurd hvalid.1 (not_le.mpr hunset), fun hne => absurd hlast hne⟩
  · exact ⟨fun _ => hlast, fun _ => hvalid⟩

/-! ### The mode `OPTIMAL` -/

/-- A literal from zero to one half stays there. -/
theorem literal_mem_half {x : ℚ} (h0 : 0 ≤ x) (h1 : x ≤ 1 / 2) :
    0 ≤ (Single.literal x).val ∧ (Single.literal x).val ≤ 1 / 2 := by
  have hdouble := nearest_roundBinary (p := 53) (l := -1074) (by decide)
  have hhalf : (1 / 2 : ℚ) ∈ Binary 24 (-149) := ⟨1, -1, by decide, by decide, by norm_num⟩
  have hhalf' : (1 / 2 : ℚ) ∈ Binary 53 (-1074) := ⟨1, -1, by decide, by decide, by norm_num⟩
  refine ⟨(literal_mem_unit h0 (by linarith)).1, ?_⟩
  exact nearest_single.le_of_le hhalf (hdouble.le_of_le hhalf' h1)

/-- The operations, each with its ratio for long vectors. -/
inductive Operation : Call → ℕ → Single → Prop where
  | encrypt (size : ℕ) : Operation (.encrypt size) size ratioEncrypt
  | decrypt (size : ℕ) : Operation (.decrypt size) size ratioDecrypt
  | rawMul (size : ℕ) : Operation (.rawMul size) size ratioMultiply

namespace Operation

variable {call : Call} {size : ℕ} {special : Single} {params : HybridParams}

theorem special_unit (hop : Operation call size special) :
    0 ≤ special.val ∧ special.val ≤ 1 / 2 := by
  cases hop with
  | encrypt => exact literal_mem_half (by norm_num) (by norm_num)
  | decrypt => exact literal_mem_half (by norm_num) (by norm_num)
  | rawMul => exact literal_mem_half (by norm_num) (by norm_num)

theorem useSpecialRatio_eq (hop : Operation call size special)
    (hmode : params.mode = .optimal) : params.useSpecialRatio special size
      = .ok ⟨if size ≤ workloadSizeThreshold then ratioFull else special, .optimal⟩ := by
  obtain ⟨h0, hhalf⟩ := hop.special_unit
  have hoptimal : params.isHybridOptimal = true := by
    simp [isHybridOptimal, hmode]
  have hratio : (FloatArg.number
      (if size ≤ workloadSizeThreshold then ratioFull else special)).isRatio = true := by
    split_ifs
    · simp [FloatArg.isRatio, ratioFull_val]
    · simp only [FloatArg.isRatio, Bool.and_eq_true, decide_eq_true_eq]
      exact ⟨by linarith, h0⟩
  simp only [useSpecialRatio, hoptimal, setHybridRatio, hratio, hmode, if_true,
    Bool.false_eq_true, if_false]

theorem after_eq (hop : Operation call size special) (hpos : 0 < size)
    (hmode : params.mode = .optimal) : call.after params
      = ⟨if size ≤ workloadSizeThreshold then ratioFull else special, .optimal⟩ := by
  have hspecial := hop.useSpecialRatio_eq hmode
  have hperform : call.perform params = params.useSpecialRatio special size := by
    cases hop with
    | encrypt =>
        rw [Call.perform, HybridParams.encrypt, decide_eq_true hpos]
        rfl
    | decrypt =>
        rw [Call.perform, HybridParams.decrypt, decide_eq_true hpos]
        rfl
    | rawMul => rfl
  rw [Call.after, hperform, hspecial]

end Operation

/--
**The mode `OPTIMAL` splits inside every vector.**

Whatever a thread has called: under that mode an encryption, a decryption or a product of a
vector, however long, leaves a ratio that gives the device no more than the vector has, and
all of it up to 128 elements.
-/
theorem optimal_inside {calls : List Call} (hmode : (settle calls).mode = .optimal)
    {call : Call} {size : ℕ} {special : Single} (hop : Operation call size special)
    (hpos : 0 < size) :
    hybridQatSize (settle (calls ++ [call])).ratio size ≤ size ∧
      (size ≤ 128 → hybridQatSize (settle (calls ++ [call])).ratio size = size) := by
  have hsettle : settle (calls ++ [call]) = call.after (settle calls) := by
    simp [settle]
  rw [hsettle, hop.after_eq hpos hmode]
  by_cases hsize : size ≤ workloadSizeThreshold
  · have hlt : size < 2 ^ 24 := hsize.trans_lt (by decide)
    have heq : hybridQatSize ratioFull size = size := by
      rw [hybridQatSize_one ratioFull_val, single_nat hlt, Int.floor_natCast]
      rfl
    simp only [hsize, if_true, heq, le_refl, implies_true, and_self]
  · simp only [hsize, if_false]
    refine ⟨hybridQatSize_le ?_ size, fun hle => absurd hle hsize⟩
    linarith [hop.special_unit.2]

theorem optimal_inside_million :
    hybridQatSize (settle [.setHybridOff, .setHybridMode .optimal, .decrypt 1000000]).ratio 1000000
      ≤ 1000000 :=
  have hmode : (settle [.setHybridOff, .setHybridMode .optimal]).mode = .optimal := rfl
  (optimal_inside hmode (.decrypt 1000000) (by decide)).1

/-! ### The exponentiation under the settings -/

section
variable {en : Engines} {bits : ℕ} {ts : List Triple} {mb : Bool}

/-- A part beyond the end of the vector. -/
theorem modExp_outside {k : ℕ} (hk : ts.length < k) :
    en.modExp mb k (bases ts) (exps ts) (mods ts) = .error (.undefined "read past the end") := by
  have hslice : slice (bases ts) 0 k = .error (.undefined "read past the end") := by
    refine if_neg ?_
    rw [List.length_map]
    omega
  have hlen : k ≠ (bases ts).length := by
    rw [List.length_map]
    omega
  rw [Engines.modExp, if_neg hlen, if_neg (by omega), hslice]
  rfl

/--
**Under which settings a vector is exponentiated.**

After any calls of a thread, for any vector the engines can take: it is, unless the last
setting was the mode `UNDEFINED`, or the whole ratio meets a length that is rounded up.
-/
theorem hybrid_modExp_iff (h : en.Lawful) (calls : List Call) (hu : Uniform bits ts)
    (hne : ts ≠ []) (hlen : ts.length < 2 ^ 31)
    (hread : ∀ t ∈ ts, Readable (bitsizeWord bits) t.power.natAbs) :
    en.hybridModExp (settle calls) mb (bases ts) (exps ts) (mods ts) = .ok (powers ts) ↔
      lastSetting calls ≠ some (.setHybridMode .undefined) ∧
        ((settle calls).ratio.val = 1 → ⌊(Single.round ts.length).val⌋.toNat ≤ ts.length) := by
  have hcheck : (decide ((settle calls).ratio.val ≥ 0) && decide ((settle calls).ratio.val ≤ 1))
      = true ↔ (settle calls).Valid := by
    simp [HybridParams.Valid]
  by_cases hvalid : (settle calls).Valid
  · have hinside := hybridQatSize_le_iff hvalid.2 ts.length
    rw [and_iff_right ((valid_iff calls).mp hvalid), ← hinside, hybridModExp, hcheck.mpr hvalid,
      errorCheck_true, Result.bind_ok, List.length_map]
    constructor
    · intro hok
      by_contra hc
      rw [modExp_outside (not_le.mp hc)] at hok
      cases hok
    · intro hle
      refine modExp_eq h (.of_uniform hu hlen hread mb _) hne hle ?_
      unfold qatModexpBatchSize
      omega
  · have hfalse : (decide ((settle calls).ratio.val ≥ 0)
        && decide ((settle calls).ratio.val ≤ 1)) = false := by
      rw [Bool.eq_false_iff]
      exact fun htrue => hvalid (hcheck.mp htrue)
    rw [hybridModExp, hfalse]
    constructor
    · intro hok
      cases hok
    · intro hcond
      exact absurd ((valid_iff calls).mpr hcond.1) hvalid

end

/-- Two powers modulo 7 and 5, half of them on the device, then under no ratio at all. -/
theorem hybrid_modExp_seven_five :
    reference.hybridModExp (settle [.encrypt 2, .setHybridMode .half]) true [3, 4] [2, 3] [7, 5]
        = .ok [2, 4] ∧
      reference.hybridModExp (settle [.setHybridMode .undefined, .decrypt 2]) true [3, 4] [2, 3]
        [7, 5] ≠ .ok [2, 4] := by
  have hu : Uniform 3 [(3, 2, 7), (4, 3, 5)] := by decide
  have hiff := fun calls => @hybrid_modExp_iff reference 3 _ true reference_lawful calls hu
    (by decide) (by decide) (by decide)
  refine ⟨(hiff [.encrypt 2, .setHybridMode .half]).mpr ⟨by simp [lastSetting, Call.isSetting],
    fun _ => floor_le_of_le (single_nat (by decide)).le⟩, fun hok => ?_⟩
  exact ((hiff [.setHybridMode .undefined, .decrypt 2]).mp hok).1 rfl

end Ipcl.Hybrid
