/-
Octet strings.

The QAT engine takes and returns numbers as big-endian octet strings of one length.
`toBin` writes the bytes of a number from the end of a buffer backwards, as many as
its words have.  `fromBin` first builds a number from the string as it stands, that
is with its bytes in the wrong order, and then overwrites the bytes of that number
in the right order.

The assignment in `fromBin` copies the number, and a copy has room for the digits
of its value only.  When the string ends in a run of zeros, the number with its
bytes in the wrong order is shorter than the string, and the bytes written
afterwards do not fit.
-/
import Ipcl.BigNumber.Bits

namespace Ipcl.BigNumber

/-- The big-endian octet string of `v`, of `len` bytes. -/
def octets (len v : Nat) : List Nat := (Digits.fixed 256 len v).reverse

@[simp] theorem length_octets (len v : Nat) : (octets len v).length = len := by
  simp [octets]

/-! ### `toBin` -/

/-- The loop of `toBin`: the bytes are stored downwards from a position. -/
def storeDown (data : List Nat) : Int → List Nat → Result (List Nat)
  | _, [] => .ok data
  | pos, b :: rest =>
      if 0 ≤ pos ∧ pos < data.length then storeDown (data.set pos.toNat b) (pos - 1) rest
      else .error (.undefined "store outside the buffer")

/-- `toBin`, into an existing buffer -/
def toBin (data : List Nat) (len : Int) (bn : Int) : Result (Bool × List Nat) :=
  if len ≤ 0 then .ok (false, data)
  else do
    let bytes := Digits.fixed 256 (bitsizeWord (bitLen bn) * 4) bn.natAbs
    let data ← storeDown data (len - 1) bytes
    pure (true, data)

theorem storeDown_eq : ∀ (bytes low high : List Nat), bytes.length ≤ low.length →
    storeDown (low ++ high) (low.length - 1) bytes
      = .ok (low.take (low.length - bytes.length) ++ bytes.reverse ++ high) := by
  intro bytes
  induction bytes with
  | nil => intro low high _; simp [storeDown]
  | cons b rest ih =>
      intro low high hlen
      rw [List.length_cons] at hlen
      obtain ⟨init, last, rfl⟩ : ∃ init last, low = init ++ [last] := by
        refine ⟨low.dropLast, low.getLast (List.ne_nil_of_length_pos (by omega)), ?_⟩
        exact (List.dropLast_append_getLast _).symm
      have hpos : (((init ++ [last]).length : Int) - 1).toNat = init.length := by simp
      have hset : (init ++ [last] ++ high).set init.length b = init ++ (b :: high) := by
        simp
      rw [storeDown, if_pos (by simp), hpos, hset]
      have hnext : ((init ++ [last]).length : Int) - 1 - 1 = init.length - 1 := by
        rw [List.length_append, List.length_singleton]
        omega
      rw [hnext, ih init (b :: high) (by simpa using hlen)]
      congr 1
      rw [List.length_append, List.length_singleton, List.length_cons,
        Nat.add_sub_add_right, List.take_append_of_le_length (by omega)]
      simp

/-- Into a cleared buffer that is long enough, `toBin` writes the octet string. -/
theorem toBin_eq {len : Nat} {x : Int} (hlen : 0 < len)
    (hfit : bitsizeWord (bitLen x) * 4 ≤ len) :
    toBin (List.replicate len 0) len x = .ok (true, octets len x.natAbs) := by
  have hbytes : x.natAbs < 256 ^ (bitsizeWord (bitLen x) * 4) := by
    have h := natAbs_lt_pow_words x
    rw [show (256 : Nat) = 2 ^ 8 by norm_num]
    rw [← pow_mul] at h ⊢
    rwa [show 8 * (bitsizeWord (bitLen x) * 4) = 32 * bitsizeWord (bitLen x) by ring]
  have hstore := storeDown_eq (Digits.fixed 256 (bitsizeWord (bitLen x) * 4) x.natAbs)
    (List.replicate len 0) [] (by simpa using hfit)
  rw [List.append_nil, List.append_nil, List.length_replicate] at hstore
  rw [toBin, if_neg (by omega)]
  simp only [hstore, Result.bind_ok, octets]
  rw [Digits.fixed_append_zeros (by decide) hbytes hfit]
  simp
  rfl

/-- The bytes that have been stored had room below the position. -/
theorem length_le_of_storeDown : ∀ {bytes data data' : List Nat} {pos : Int}, -1 ≤ pos →
    storeDown data pos bytes = .ok data' → (bytes.length : Int) ≤ pos + 1 := by
  intro bytes
  induction bytes with
  | nil =>
      intro data data' pos hpos _
      rw [List.length_nil]
      omega
  | cons b rest ih =>
      intro data data' pos hpos hok
      rw [storeDown] at hok
      by_cases hin : 0 ≤ pos ∧ pos < data.length
      · rw [if_pos hin] at hok
        have hrest := ih (by omega) hok
        rw [List.length_cons]
        push_cast
        omega
      · rw [if_neg hin] at hok
        cases hok

/-- A number that has been written has no more words than the buffer. -/
theorem words_of_toBin {len : Nat} {x : Int} {data data' : List Nat}
    (hok : toBin data len x = .ok (true, data')) : bitsizeWord (bitLen x) * 4 ≤ len := by
  unfold toBin at hok
  by_cases hlen : (len : Int) ≤ 0
  · rw [if_pos hlen] at hok
    cases hok
  · rw [if_neg hlen] at hok
    obtain ⟨stored, hstore, -⟩ := Result.of_bind_ok hok
    have hle := length_le_of_storeDown (by omega) hstore
    rw [Digits.length_fixed] at hle
    omega

/-! ### `fromBin` -/

/-- `fromBin`.  Nothing is returned when the call reports failure. -/
def fromBin (data : List Nat) (len : Int) : Result (Option Int) :=
  if len ≤ 0 then .ok none
  else if len.tdiv 4 < 1 then .error (.undefined "number of no words")
  else
    let wrong : Nat := Nat.ofDigits 256 (data.take (4 * (len.tdiv 4).toNat))
    let room := 8 * roomOf (bitsizeWord (bitLen wrong))
    if room < len then .error (.undefined "write past the digits of a number")
    else
      let stored := Digits.fixed 256 room wrong
      let bytes := (data.take len.toNat).reverse ++ stored.drop len.toNat
      .ok (some (Nat.ofDigits 256 bytes : Nat))

/-- The strings of `w` words that `fromBin` reads back: at most one digit, or a lowest
digit that is not zero.  With an odd number of words the topmost digit of the number in
the wrong order is half filled. -/
def Readable (w v : Nat) : Prop := w ≤ 2 ∨ v % 2 ^ (if w % 2 = 0 then 64 else 32) ≠ 0

instance (w v : Nat) : Decidable (Readable w v) := by
  unfold Readable
  infer_instance

theorem pow_octets (k : Nat) : (256 : Nat) ^ k = 2 ^ (8 * k) := by
  rw [show (256 : Nat) = 2 ^ 8 by norm_num, ← pow_mul]

theorem lt_of_mem_octets {len v d : Nat} (hd : d ∈ octets len v) : d < 256 :=
  Digits.lt_of_mem_fixed (by decide) (List.mem_reverse.mp hd)

/-- The octets in the right order, and zeros above them, are the number. -/
theorem ofDigits_octets_zeros {len v : Nat} (hv : v < 256 ^ len) (k : Nat) :
    Nat.ofDigits 256 ((octets len v).reverse ++ List.replicate k 0) = v := by
  rw [octets, List.reverse_reverse, Nat.ofDigits_append, Digits.ofDigits_fixed_of_lt hv,
    (Digits.ofDigits_eq_zero_iff (by decide) _).mpr fun d hd => List.eq_of_mem_replicate hd]
  simp

/-- Read in the wrong order they have no more bytes. -/
theorem ofDigits_octets_lt (len v : Nat) : Nat.ofDigits 256 (octets len v) < 256 ^ len := by
  have h := Nat.ofDigits_lt_base_pow_length (by decide : 1 < 256) (l := octets len v)
    fun d hd => lt_of_mem_octets hd
  rwa [length_octets] at h

/-- What is left of the number in the wrong order above its lower digits. -/
theorem ofDigits_octets_div {len k : Nat} (v : Nat) (hk : k ≤ len) :
    Nat.ofDigits 256 (octets len v) / 256 ^ k = Nat.ofDigits 256 (octets (len - k) v) := by
  have hlt : ∀ d ∈ octets len v, d < 256 := fun d hd => lt_of_mem_octets hd
  rw [Nat.ofDigits_div_pow_eq_ofDigits_drop k (by decide) _ hlt, octets, List.drop_reverse,
    Digits.length_fixed, Digits.take_fixed (by omega)]
  rfl

/-- The number in the wrong order has all its digits exactly for the readable strings. -/
theorem room_iff_readable {w v : Nat} (hw : 0 < w) :
    4 * w ≤ 8 * roomOf (bitsizeWord (bitLen (Nat.ofDigits 256 (octets (4 * w) v) : Nat)))
      ↔ Readable w v := by
  set wrong := Nat.ofDigits 256 (octets (4 * w) v) with hwrong
  have hroom : 8 * roomOf (bitsizeWord (bitLen (wrong : Int))) = 8 * (wrong.log2 / 64 + 1) := by
    unfold roomOf bitsizeWord bitLen
    rw [Int.natAbs_natCast]
    omega
  rw [hroom]
  -- the digits of the string, the last one full or half filled
  obtain ⟨t, ht⟩ : ∃ t, w = 2 * t + 2 ∨ w = 2 * t + 1 := ⟨(w - 1) / 2, by omega⟩
  have hdigits : 4 * w ≤ 8 * (wrong.log2 / 64 + 1) ↔ t = 0 ∨ 64 * t ≤ wrong.log2 := by omega
  rw [hdigits]
  rcases Nat.eq_zero_or_pos t with rfl | htpos
  · simp only [true_or, true_iff]
    exact Or.inl (by omega)
  have hk : 8 * t ≤ 4 * w := by omega
  have htop : 64 * t ≤ wrong.log2 ↔ v % 256 ^ (4 * w - 8 * t) ≠ 0 := by
    rw [Ne, ← Digits.ofDigits_reverse_fixed_eq_zero_iff (by decide : 0 < 256), ← octets,
      ← ofDigits_octets_div v hk, ← hwrong]
    have hpow : (256 : Nat) ^ (8 * t) = 2 ^ (64 * t) := by
      rw [pow_octets]
      congr 1
      ring
    rw [hpow, Nat.div_eq_zero_iff, not_or, not_lt]
    constructor
    · intro hle
      have hne : wrong ≠ 0 := by
        intro hz
        rw [hz] at hle
        have : Nat.log2 0 = 0 := by decide
        omega
      exact ⟨(Nat.two_pow_pos _).ne', (Nat.le_log2 hne).mp hle⟩
    · intro hboth
      obtain ⟨-, hle⟩ := hboth
      have hne : wrong ≠ 0 := by
        have := Nat.two_pow_pos (64 * t)
        omega
      exact (Nat.le_log2 hne).mpr hle
  rw [htop]
  have h64 : (256 : Nat) ^ 8 = 2 ^ 64 := by norm_num
  have h32 : (256 : Nat) ^ 4 = 2 ^ 32 := by norm_num
  rcases ht with rfl | rfl
  · rw [show 4 * (2 * t + 2) - 8 * t = 8 by omega, h64, Readable, if_pos (by omega)]
    omega
  · rw [show 4 * (2 * t + 1) - 8 * t = 4 by omega, h32, Readable, if_neg (by omega)]
    omega

/-- Reading a string of whole words back. -/
theorem fromBin_octets {w v : Nat} (hw : 0 < w) (hv : v < 256 ^ (4 * w)) :
    fromBin (octets (4 * w) v) ((4 * w : Nat) : Int)
      = if Readable w v then .ok (some (v : Int))
        else .error (.undefined "write past the digits of a number") := by
  have hwords : (((4 * w : Nat) : Int).tdiv 4) = w := by
    rw [Int.tdiv_eq_ediv_of_nonneg (by omega)]
    omega
  have htake : (octets (4 * w) v).take (4 * w) = octets (4 * w) v :=
    List.take_of_length_le (by simp)
  rw [fromBin, if_neg (by omega), hwords, if_neg (by omega), Int.toNat_natCast, htake]
  simp only [Nat.cast_lt, Int.toNat_natCast, htake]
  have hiff := room_iff_readable (v := v) hw
  set wrong := Nat.ofDigits 256 (octets (4 * w) v) with hwrong
  set room := 8 * roomOf (bitsizeWord (bitLen (wrong : Int))) with hroom
  by_cases hr : Readable w v
  · have hfit : 4 * w ≤ room := hiff.mpr hr
    rw [if_neg (by omega), if_pos hr]
    -- beyond the string the number in the wrong order has zero bytes only
    have hlt : wrong < 256 ^ (4 * w) := ofDigits_octets_lt _ _
    rw [Digits.fixed_append_zeros (by decide) hlt hfit, List.drop_append_of_le_length (by simp),
      List.drop_of_length_le (by simp), List.nil_append, ofDigits_octets_zeros hv]
  · have hfit : ¬ 4 * w ≤ room := fun hc => hr (hiff.mp hc)
    rw [if_pos (by omega), if_neg hr]

end Ipcl.BigNumber
