/-
What the engines of a build do for the keys.

The keys hand three vectors to `modExp` and rely on the powers.  Which vectors that is
justified for depends on how the build shares them out.  The part for the device needs
exponents with the words of the modulus and results that are read back.  The
multi-buffer function takes exponents that are not longer than the modulus, and nothing
is promised for others.  `Reached` collects this for a vector, `Takes` for a single
element, whatever its place.
-/
import Ipcl.Proofs.Refusals

namespace Ipcl

open BigNumber

namespace Engines

/-- Operands that reach the engines whole and results that are read back, where the first `k`
elements go to the device and the moduli have the given length. -/
structure Reached (mb : Bool) (bits k : ℕ) (ts : List Triple) : Prop where
  device : ∀ t ∈ ts.take k, bitsizeWord (bitLen t.2.1) ≤ bitsizeWord bits ∧
    Readable (bitsizeWord bits) t.power.natAbs
  lanes : mb = true → (ts.drop k).length ≠ 1 → ∀ t ∈ ts.drop k, bitLen t.2.1 ≤ bits

section
variable {mb : Bool} {bits k : ℕ} {ts : List Triple}

/-- To reach the engines is to be served by them. -/
theorem served_iff_reached (hadm : ∀ t ∈ ts, Admissible t.1 t.2.1 t.2.2)
    (hmod : ∀ t ∈ ts, bitLen t.2.2 = bits) (hlen : ts.length < 2 ^ 31) :
    Served mb bits k ts ↔ Reached mb bits k ts := by
  have hfront : ∀ t ∈ ts.take k, t ∈ ts := fun t ht => List.mem_of_mem_take ht
  have hback : ∀ t ∈ ts.drop k, t ∈ ts := fun t ht => List.mem_of_mem_drop ht
  constructor
  · intro h
    refine ⟨fun t ht => ⟨h.sendable.exp_words t ht, h.readable t ht⟩, fun hmb hone => ?_⟩
    exact (h.lanes hmb hone).exp_bits
  · intro h
    refine ⟨⟨fun t ht => hadm t (hfront t ht), fun t ht => hmod t (hfront t ht),
      fun t ht => (h.device t ht).1⟩, fun t ht => (h.device t ht).2,
      fun t ht => hadm t (hback t ht), fun hmb hone => ?_, fun _ => ?_⟩
    · exact ⟨fun t ht => hadm t (hback t ht), fun t ht => hmod t (hback t ht), h.lanes hmb hone⟩
    · rw [List.length_drop]
      omega

end

/-! ### As the keys call them -/

section
variable {en : Engines} (h : en.Lawful) {mb : Bool} {share : ℕ → ℕ}
include h

/-- A single number never goes to the device or into a lane. -/
theorem toModExp_exact : (en.toModExp mb share).OneExact where
  one_exact _ _ _ hadm := by
    obtain ⟨radix, hmont⟩ := h.mont
    exact ippSBModExp_eq hmont hadm

/-- A vector that reaches the engines is served. -/
theorem serves_of_reached {bits : ℕ} {ts : List Triple}
    (hadm : ∀ t ∈ ts, Admissible t.1 t.2.1 t.2.2) (hmod : ∀ t ∈ ts, bitLen t.2.2 = bits)
    (hne : ts ≠ []) (hlen : ts.length < 2 ^ 31) (hshare : share ts.length ≤ ts.length)
    (hreach : Reached mb bits (share ts.length) ts) : (en.toModExp mb share).Serves ts := by
  have hs := (served_iff_reached hadm hmod hlen).mpr hreach
  have hvec := modExp_eq h hs hne hshare (by unfold qatModexpBatchSize; omega)
  rw [ModExp.Serves]
  show en.modExp mb (share (bases ts).length) (bases ts) (exps ts) (mods ts) = _
  rwa [List.length_map]

/-- So is a call with exponents that are not longer than the modulus, once the results of the
device can be read back. -/
theorem serves_of_readable {m : ℤ} {ts : List Triple} (hcall : ModExp.Call m ts)
    (hshort : ∀ t ∈ ts, Short t) (hshare : share ts.length ≤ ts.length)
    (hread : ∀ t ∈ ts.take (share ts.length), Readable (bitsizeWord (bitLen m)) t.power.natAbs) :
    (en.toModExp mb share).Serves ts := by
  have hmod : ∀ t ∈ ts, bitLen t.2.2 = bitLen m := fun t ht => by rw [hcall.modulus t ht]
  refine serves_of_reached h hcall.admissible hmod hcall.ne_nil hcall.length_lt hshare ?_
  constructor
  · intro t ht
    have hmem := List.mem_of_mem_take ht
    exact ⟨bitsizeWord_mono (hmod t hmem ▸ hshort t hmem), hread t ht⟩
  · intro _ _ t ht
    have hmem := List.mem_of_mem_drop ht
    exact hmod t hmem ▸ hshort t hmem

/-- What has come back from the device could be read. -/
theorem readable_of_vec {bits : ℕ} {ts : List Triple}
    (hadm : ∀ t ∈ ts, Admissible t.1 t.2.1 t.2.2) (hmod : ∀ t ∈ ts, bitLen t.2.2 = bits)
    (hlen : ts.length < 2 ^ 31) (hshare : share ts.length ≤ ts.length) {rs : List ℤ}
    (hok : (en.toModExp mb share).vec (bases ts) (exps ts) (mods ts) = .ok rs) :
    ∀ t ∈ ts.take (share ts.length), Readable (bitsizeWord bits) t.power.natAbs := by
  have hvec : en.modExp mb (share ts.length) (bases ts) (exps ts) (mods ts) = .ok rs := by
    rw [← hok]
    show _ = en.modExp mb (share (bases ts).length) (bases ts) (exps ts) (mods ts)
    rw [List.length_map]
  have hfront : ∀ t ∈ ts.take (share ts.length), t ∈ ts := fun t ht => List.mem_of_mem_take ht
  have hsize : (ts.take (share ts.length)).length = share ts.length := List.length_take_of_le hshare
  intro t ht
  have hpos : 0 < share ts.length := by
    rw [← hsize]
    exact List.length_pos_of_mem ht
  obtain ⟨r, hr⟩ := (parts_of_ok hshare hvec).1 hpos
  have hne : ts.take (share ts.length) ≠ [] := List.ne_nil_of_mem ht
  have hroom : (ts.take (share ts.length)).length + qatModexpBatchSize ≤ 2 ^ 32 := by
    unfold qatModexpBatchSize
    omega
  have hs := sendable_of_ok h.ipp (fun t ht => hadm t (hfront t ht))
    (fun t ht => hmod t (hfront t ht)) hne hroom (by decide) hr
  exact readable_of_ok h hs hne hroom (by decide) hr t ht

end

/-- An element the engines of a build take at any place of a vector. -/
structure Takes (mb : Bool) (share : ℕ → ℕ) (t : Triple) : Prop where
  lanes : mb = true → Short t
  device : (∃ n, share n ≠ 0) → bitsizeWord (bitLen t.2.1) ≤ bitsizeWord (bitLen t.2.2) ∧
    Readable (bitsizeWord (bitLen t.2.2)) t.power.natAbs

/-- **The engines of a build do what the keys rely on, for the elements they take.** -/
theorem toModExp_lawful {en : Engines} (h : en.Lawful) (mb : Bool) {share : ℕ → ℕ}
    (hshare : ∀ n, share n ≤ n) : (en.toModExp mb share).Lawful (Takes mb share) where
  toOneExact := toModExp_exact h
  vec_exact m ts hcall htakes := by
    have hmod : ∀ t ∈ ts, bitLen t.2.2 = bitLen m := fun t ht => by rw [hcall.modulus t ht]
    refine serves_of_reached h hcall.admissible hmod hcall.ne_nil hcall.length_lt (hshare _) ?_
    constructor
    · intro t ht
      have hmem := List.mem_of_mem_take ht
      rw [← hmod t hmem]
      refine (htakes t hmem).device ⟨ts.length, fun hzero => ?_⟩
      rw [hzero, List.take_zero] at ht
      cases ht
    · intro hmb _ t ht
      have hmem := List.mem_of_mem_drop ht
      rw [← hmod t hmem]
      exact (htakes t hmem).lanes hmb

/-- Without the device an exponent that is not longer than its modulus is all they ask. -/
theorem toModExp_lawful_short {en : Engines} (h : en.Lawful) (mb : Bool) :
    (en.toModExp mb fun _ => 0).Lawful Short :=
  (toModExp_lawful h mb fun _ => Nat.zero_le _).mono fun _ hshort =>
    ⟨fun _ => hshort, fun hdevice => absurd rfl hdevice.choose_spec⟩

end Engines

end Ipcl
