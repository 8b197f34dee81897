/-
Modular exponentiation as the keys see it.

The key and ciphertext classes call `modExp` on three vectors or on three numbers
and rely on one thing: for an odd modulus, a base below it and an exponent that is
not negative, every element of the result is the power.  `ModExp` is that pair of
functions and `ModExp.Lawful` that reliance, as far as it is justified: for vectors it
depends on the elements.  How the vector call is cut into batches for the engines behind
it is the subject of `Ipcl.ModExp.Batch`, and that it is lawful that of
`Ipcl.Proofs.ModExp`.
-/
import Ipcl.BigNumber
import Ipcl.Lib.Vec

namespace Ipcl

/-- The power `base ^ exp` modulo `mod`. -/
def powMod (base exp mod : Int) : Int := base ^ exp.toNat % mod

theorem powMod_nonneg {b e m : Int} (hm : 0 < m) : 0 ≤ powMod b e m :=
  Int.emod_nonneg _ hm.ne'

theorem powMod_lt {b e m : Int} (hm : 0 < m) : powMod b e m < m :=
  Int.emod_lt_of_pos _ hm

theorem powMod_modEq (b e m : Int) : powMod b e m ≡ b ^ e.toNat [ZMOD m] := Int.mod_modEq _ _

/-- The operands the exponentiation is specified for. -/
structure Admissible (base exp mod : Int) : Prop where
  odd : Odd mod
  base_nonneg : 0 ≤ base
  base_lt : base < mod
  exp_nonneg : 0 ≤ exp

namespace Admissible

variable {b e m : Int}

theorem mod_pos (h : Admissible b e m) : 0 < m := h.base_nonneg.trans_lt h.base_lt

theorem iff_checks : Admissible b e m ↔ m % 2 = 1 ∧ 0 ≤ b ∧ b < m ∧ 0 ≤ e :=
  ⟨fun h => ⟨Int.odd_iff.mp h.odd, h.base_nonneg, h.base_lt, h.exp_nonneg⟩,
    fun ⟨hodd, h0, h1, he⟩ => ⟨Int.odd_iff.mpr hodd, h0, h1, he⟩⟩

instance : Decidable (Admissible b e m) := decidable_of_iff _ iff_checks.symm

/-- A residue is an admissible base. -/
theorem of_emod (hm : 0 < m) (hodd : Odd m) (he : 0 ≤ e) (a : Int) : Admissible (a % m) e m :=
  ⟨hodd, Int.emod_nonneg _ hm.ne', Int.emod_lt_of_pos _ hm, he⟩

end Admissible

/-- The two forms of `modExp`. -/
structure ModExp where
  /-- on three vectors -/
  vec : List Int → List Int → List Int → Result (List Int)
  /-- on three numbers -/
  one : Int → Int → Int → Result Int

/-- Base, exponent and modulus of one element. -/
abbrev Triple := Int × Int × Int

/-- The three vectors handed to `modExp`, and the vector expected. -/
abbrev bases (ts : List Triple) : List Int := ts.map (·.1)

abbrev exps (ts : List Triple) : List Int := ts.map (·.2.1)

abbrev mods (ts : List Triple) : List Int := ts.map (·.2.2)

abbrev Triple.power (t : Triple) : Int := powMod t.1 t.2.1 t.2.2

abbrev powers (ts : List Triple) : List Int := ts.map Triple.power

/-- The exponent is not longer than the modulus. -/
def Short (t : Triple) : Prop := BigNumber.bitLen t.2.1 ≤ BigNumber.bitLen t.2.2

instance (t : Triple) : Decidable (Short t) := by
  unfold Short
  infer_instance

theorem short_of_le {b e m : Int} (h0 : 0 ≤ e) (hle : e ≤ m) : Short (b, e, m) :=
  BigNumber.bitLen_le_of_natAbs_le (by show e.natAbs ≤ m.natAbs; omega)

/-! ### What the keys rely on -/

namespace ModExp

/-- A single number is raised. -/
structure OneExact (me : ModExp) : Prop where
  one_exact : ∀ b e m, Admissible b e m → me.one b e m = .ok (powMod b e m)

/-- The call on these vectors returns the powers. -/
def Serves (me : ModExp) (ts : List Triple) : Prop :=
  me.vec (bases ts) (exps ts) (mods ts) = .ok (powers ts)

/-- The calls on vectors the keys make: one modulus, and no more elements than an `int` counts. -/
structure Call (m : Int) (ts : List Triple) : Prop where
  ne_nil : ts ≠ []
  length_lt : ts.length < 2 ^ 31
  modulus : ∀ t ∈ ts, t.2.2 = m
  admissible : ∀ t ∈ ts, Admissible t.1 t.2.1 t.2.2

/-- Single numbers are raised, and so are the vectors whose elements it `takes`.  Which elements
that are is a matter of the engines: a lane takes no exponent that is longer than the modulus,
and of the results of the device some are not read back. -/
structure Lawful (me : ModExp) (takes : Triple → Prop) : Prop extends me.OneExact where
  vec_exact : ∀ m ts, Call m ts → (∀ t ∈ ts, takes t) → me.Serves ts

variable {me : ModExp} {takes takes' : Triple → Prop}

theorem Lawful.mono (h : me.Lawful takes) (hsub : ∀ t, takes' t → takes t) :
    me.Lawful takes' where
  toOneExact := h.toOneExact
  vec_exact m ts hcall ht := h.vec_exact m ts hcall fun t hmem => hsub t (ht t hmem)

end ModExp

/-! ### A reference implementation -/

/-- The element-wise exponentiation, which refuses a base that is not a residue, a
modulus that is not odd and a negative exponent. -/
def powModChecked (b e m : Int) : Result Int :=
  if m % 2 = 1 ∧ 0 ≤ b ∧ b < m ∧ 0 ≤ e then .ok (powMod b e m)
  else .error (.runtime "ippMontExp: convert big number into Mont form error.")

theorem powModChecked_ok {b e m : Int} (h : Admissible b e m) :
    powModChecked b e m = .ok (powMod b e m) :=
  if_pos (Admissible.iff_checks.mp h)

/-- `modExp` by the element-wise exponentiation. -/
def ModExp.reference : ModExp where
  vec bs es ms := (bs.zip (es.zip ms)).mapM fun t => powModChecked t.1 t.2.1 t.2.2
  one := powModChecked

theorem ModExp.reference_exact : ModExp.reference.OneExact := ⟨fun _ _ _ => powModChecked_ok⟩

theorem ModExp.reference_lawful (takes : Triple → Prop) : ModExp.reference.Lawful takes where
  toOneExact := reference_exact
  vec_exact _ ts hcall _ := by
    have hzip : (ts.map (·.1)).zip ((ts.map (·.2.1)).zip (ts.map (·.2.2))) = ts := by
      rw [List.zip_map', List.zip_map']
      exact List.map_id' ts
    show ((ts.map (·.1)).zip ((ts.map (·.2.1)).zip (ts.map (·.2.2)))).mapM _ = _
    rw [hzip]
    exact Vec.mapM_ok ts fun t ht => powModChecked_ok (hcall.admissible t ht)

end Ipcl
