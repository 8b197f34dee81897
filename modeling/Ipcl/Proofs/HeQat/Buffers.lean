/-
Who holds which buffer.

The invariant is `Owned`: the flags of a buffer are those of a buffer in use exactly
when some thread holds it, no buffer is held twice, and the busy count is the number of
buffers held.  Everything else follows from it by counting.  As long as the count has
not reached the number of buffers, some buffer is not held, hence free, and the scan
passes every buffer before it gives up, so where the scan starts does not matter.
-/
import Ipcl.HeQat.Pipeline

namespace Ipcl.HeQat

/-! ### Counting flags -/

/-- A list of different numbers below `n` is as long as the range has members of it. -/
theorem countP_range_mem {n : ℕ} {ids : List ℕ} (hnd : ids.Nodup) (hlt : ∀ i ∈ ids, i < n) :
    (List.range n).countP (· ∈ ids) = ids.length := by
  rw [List.countP_eq_length_filter]
  refine List.Perm.length_eq ((List.perm_ext_iff_of_nodup ?_ hnd).mpr fun i => ?_)
  · exact List.nodup_range.filter _
  · simp only [List.mem_filter, List.mem_range, decide_eq_true_eq]
    exact ⟨fun h => h.2, fun h => ⟨hlt i h, h⟩⟩

/-- Fewer than `n` different numbers leave one below `n` out. -/
theorem exists_not_mem {n : ℕ} {ids : List ℕ} (hlen : ids.length < n) : ∃ i < n, i ∉ ids := by
  by_contra hc
  push Not at hc
  have hsub : List.range n ⊆ ids := fun i hi => hc i (List.mem_range.mp hi)
  have hle := (List.nodup_range.subperm hsub).length_le
  rw [List.length_range] at hle
  omega

/-- The flags are `x` at the buffers listed and `y` at the others. -/
def Flags (a : ℕ → ℤ) (ids : List ℕ) (x y : ℤ) : Prop :=
  ∀ i < bufferCount, a i = if i ∈ ids then x else y

namespace Flags

variable {a : ℕ → ℤ} {ids ids' : List ℕ} {x y : ℤ} {id : ℕ}

theorem update_in (h : Flags a ids x y) (hids : ∀ i, i ∈ ids' ↔ i = id ∨ i ∈ ids) :
    Flags (Function.update a id x) ids' x y := by
  intro i hi
  by_cases hid : i = id
  · rw [hid, Function.update_self, if_pos ((hids id).mpr (Or.inl rfl))]
  · rw [Function.update_of_ne hid, h i hi]
    simp only [hids, hid, false_or]

theorem update_out (h : Flags a ids x y) (hids : ∀ i, i ∈ ids' ↔ i ∈ ids ∧ i ≠ id) :
    Flags (Function.update a id y) ids' x y := by
  intro i hi
  by_cases hid : i = id
  · rw [hid, Function.update_self, if_neg fun hc => ((hids id).mp hc).2 rfl]
  · rw [Function.update_of_ne hid, h i hi]
    simp only [hids, hid, ne_eq, not_false_iff, and_true]

/-- As many flags are `x` as buffers are listed. -/
theorem countP (h : Flags a ids x y) (hxy : y ≠ x) (hnd : ids.Nodup)
    (hlt : ∀ i ∈ ids, i < bufferCount) :
    (List.range bufferCount).countP (fun i => a i = x) = ids.length := by
  rw [← countP_range_mem hnd hlt]
  refine List.countP_congr fun i hi => ?_
  rw [decide_eq_true_eq, decide_eq_true_eq, h i (List.mem_range.mp hi)]
  by_cases hmem : i ∈ ids <;> simp [hmem, hxy]

end Flags

/-! ### The scan -/

section
variable {freeBuffer : ℕ → ℤ}

/-- A buffer the scan stops at is free. -/
theorem scanFree_some : ∀ {n next id : ℕ}, next < bufferCount →
    scanFree freeBuffer n next = some id → id < bufferCount ∧ freeBuffer id ≠ 0 := by
  intro n
  induction n with
  | zero => intro next id _ h; cases h
  | succ n ih =>
      intro next id hnext h
      rw [scanFree] at h
      by_cases hfree : freeBuffer next ≠ 0
      · rw [if_pos hfree] at h
        cases h
        exact ⟨hnext, hfree⟩
      · rw [if_neg hfree] at h
        exact ih (Nat.mod_lt _ (by decide)) h

/-- A scan that gives up has seen no free buffer in its round. -/
theorem scanFree_none : ∀ {n next : ℕ}, next < bufferCount →
    scanFree freeBuffer n next = none → ∀ j < n, freeBuffer ((next + j) % bufferCount) = 0 := by
  intro n
  induction n with
  | zero => intro next _ _ j hj; exact absurd hj (Nat.not_lt_zero j)
  | succ n ih =>
      intro next hnext h j hj
      rw [scanFree] at h
      by_cases hfree : freeBuffer next ≠ 0
      · rw [if_pos hfree] at h
        cases h
      · rw [if_neg hfree] at h
        cases j with
        | zero =>
            rw [Nat.add_zero, Nat.mod_eq_of_lt hnext]
            exact not_not.mp hfree
        | succ j =>
            have hrest := ih (Nat.mod_lt _ (by decide)) h j (by omega)
            rwa [Nat.mod_add_mod, Nat.add_assoc, Nat.add_comm 1 j] at hrest

/-- A full round finds a free buffer if there is one, wherever it starts. -/
theorem scanFree_full {next i : ℕ} (hnext : next < bufferCount) (hi : i < bufferCount)
    (hfree : freeBuffer i ≠ 0) :
    ∃ id, scanFree freeBuffer bufferCount next = some id ∧ id < bufferCount
      ∧ freeBuffer id ≠ 0 := by
  cases h : scanFree freeBuffer bufferCount next with
  | some id => exact ⟨id, rfl, scanFree_some hnext h⟩
  | none =>
      exfalso
      have hseen := scanFree_none hnext h ((i + bufferCount - next) % bufferCount)
        (Nat.mod_lt _ (by decide))
      have hplace : (next + (i + bufferCount - next) % bufferCount) % bufferCount = i := by
        rw [Nat.add_mod_mod, show next + (i + bufferCount - next) = i + bufferCount by omega,
          Nat.add_mod_right, Nat.mod_eq_of_lt hi]
      rw [hplace] at hseen
      exact hfree hseen

end

/-! ### The invariant -/

variable {τ ρ : Type}

/-- The bookkeeping agrees with who holds what. -/
structure Owned (o : OutstandingBuffer ρ) (held : List (τ × ℕ)) : Prop where
  nodup : (held.map (·.2)).Nodup
  lt : ∀ x ∈ held, x.2 < bufferCount
  free : Flags o.freeBuffer (held.map (·.2)) 0 1
  ready : Flags o.readyBuffer (held.map (·.2)) 1 0
  busy : o.busyCount = held.length
  next_free : o.nextFreeBuffer < bufferCount
  next_ready : o.nextReadyBuffer < bufferCount

namespace Owned

theorem initial : Owned (OutstandingBuffer.initial : OutstandingBuffer ρ) ([] : List (τ × ℕ)) where
  nodup := List.nodup_nil
  lt x hx := by cases hx
  free _ _ := rfl
  ready _ _ := rfl
  busy := rfl
  next_free := Nat.zero_lt_succ 7
  next_ready := Nat.zero_lt_succ 7

variable {o : OutstandingBuffer ρ} {held : List (τ × ℕ)} (h : Owned o held)
include h

theorem ids_lt : ∀ i ∈ held.map (·.2), i < bufferCount := by
  intro i hi
  obtain ⟨x, hx, rfl⟩ := List.mem_map.mp hi
  exact h.lt x hx

/-- A buffer has one holder. -/
theorem holder_unique {t u : τ} {id : ℕ} (ht : (t, id) ∈ held) (hu : (u, id) ∈ held) : t = u :=
  congrArg Prod.fst (List.inj_on_of_nodup_map h.nodup ht hu rfl)

theorem countP_free : (List.range bufferCount).countP (fun i => o.freeBuffer i = 0)
    = o.busyCount := by
  rw [h.free.countP (by decide) h.nodup h.ids_lt, List.length_map, h.busy]

theorem countP_ready : (List.range bufferCount).countP (fun i => o.readyBuffer i = 1)
    = o.busyCount := by
  rw [h.ready.countP (by decide) h.nodup h.ids_lt, List.length_map, h.busy]

theorem busy_le : o.busyCount ≤ bufferCount := by
  rw [← h.countP_free]
  exact List.countP_le_length.trans (by rw [List.length_range])

/-- When a buffer is left, the scan finds one nobody holds. -/
theorem scan (hroom : o.busyCount < bufferCount) :
    ∃ id, scanFree o.freeBuffer bufferCount o.nextFreeBuffer = some id ∧ id < bufferCount ∧
      o.freeBuffer id ≠ 0 ∧ id ∉ held.map (·.2) := by
  have hlen : (held.map (·.2)).length < bufferCount := by
    rwa [List.length_map, ← h.busy]
  obtain ⟨i, hi, hfree⟩ := exists_not_mem hlen
  have hflag : o.freeBuffer i ≠ 0 := by
    rw [h.free i hi, if_neg hfree]
    decide
  obtain ⟨id, hscan, hlt, hid⟩ := scanFree_full h.next_free hi hflag
  refine ⟨id, hscan, hlt, hid, fun hmem => hid ?_⟩
  rw [h.free id hlt, if_pos hmem]

/-- What an acquisition does with the buffer its scan found. -/
theorem acquire_run {id : ℕ} (hroom : o.busyCount < bufferCount)
    (hscan : scanFree o.freeBuffer bufferCount o.nextFreeBuffer = some id)
    (hlt : id < bufferCount) (bufferId : ℕ) :
    acquireBuffer o bufferId = .ok (id, { o with
      freeBuffer := Function.update o.freeBuffer id 0
      nextFreeBuffer := (id + 1) % bufferCount
      nextReadyBuffer := id
      readyBuffer := Function.update o.readyBuffer id 1
      busyCount := (o.busyCount + 1) % 2 ^ 32 }) := by
  have hhint : ¬ o.nextFreeBuffer ≥ bufferCount := Nat.not_le_of_lt h.next_free
  rw [acquireBuffer, waitWhile_ok (by omega), Section.bind_ok, assertThat_ok hroom,
    Section.bind_ok, if_neg hhint, hscan]
  simp only [Option.getD_some]
  rw [store_ok hlt]
  rfl

/-- An acquisition waits, or returns a buffer nobody holds. -/
theorem acquire (t : τ) (bufferId : ℕ) :
    acquireBuffer o bufferId = .error .blocked ∨
      ∃ id o', acquireBuffer o bufferId = .ok (id, o') ∧ o'.buffer = o.buffer ∧
        Owned o' ((t, id) :: held) := by
  by_cases hfull : o.busyCount ≥ bufferCount
  · left
    rw [acquireBuffer, waitWhile_blocked hfull, Section.bind_error]
  right
  obtain ⟨id, hscan, hlt, -, hnew⟩ := h.scan (by omega)
  have hrun := h.acquire_run (by omega) hscan hlt bufferId
  have hids : ∀ i, i ∈ ((t, id) :: held).map (·.2) ↔ i = id ∨ i ∈ held.map (·.2) := fun i => by
    rw [List.map_cons, List.mem_cons]
  refine ⟨id, _, hrun, rfl, ?_⟩
  exact {
    nodup := List.nodup_cons.mpr ⟨hnew, h.nodup⟩
    lt := by
      intro x hx
      rcases List.mem_cons.mp hx with rfl | hx
      · exact hlt
      · exact h.lt x hx
    free := h.free.update_in hids
    ready := h.ready.update_in hids
    busy := by
      show (o.busyCount + 1) % 2 ^ 32 = held.length + 1
      have hsmall : o.busyCount < 8 := Nat.lt_of_not_le hfull
      rw [Nat.mod_eq_of_lt (by omega), h.busy]
    next_free := Nat.mod_lt _ (by decide)
    next_ready := hlt }

/-- Giving back a buffer that is held. -/
theorem release [DecidableEq τ] {t : τ} {id : ℕ} (hmem : (t, id) ∈ held) :
    ∃ o', releaseBuffer o id = .ok o' ∧ o'.buffer = o.buffer ∧
      Owned o' (held.erase (t, id)) := by
  have hlt : id < bufferCount := h.lt _ hmem
  have hpos : 0 < held.length := List.length_pos_of_mem hmem
  have hle := h.busy_le
  have hbusy := h.busy
  have hperm := List.perm_cons_erase hmem
  have hmap : (held.map (·.2)).Perm (id :: (held.erase (t, id)).map (·.2)) := by
    simpa using hperm.map (·.2)
  have hnd : (id :: (held.erase (t, id)).map (·.2)).Nodup := hmap.nodup_iff.mp h.nodup
  have hids : ∀ i, i ∈ (held.erase (t, id)).map (·.2) ↔ i ∈ held.map (·.2) ∧ i ≠ id := by
    intro i
    rw [hmap.mem_iff, List.mem_cons]
    constructor
    · intro hi
      refine ⟨Or.inr hi, ?_⟩
      rintro rfl
      exact (List.nodup_cons.mp hnd).1 hi
    · rintro ⟨rfl | hi, hne⟩
      · exact absurd rfl hne
      · exact hi
  have hrun : releaseBuffer o id = .ok { o with
      nextFreeBuffer := id
      readyBuffer := Function.update o.readyBuffer id 0
      freeBuffer := Function.update o.freeBuffer id 1
      busyCount := (o.busyCount + 2 ^ 32 - 1) % 2 ^ 32 } := by
    rw [releaseBuffer, store_ok hlt, Section.bind_ok, store_ok hlt]
    rfl
  refine ⟨_, hrun, rfl, ?_⟩
  exact {
    nodup := (List.nodup_cons.mp hnd).2
    lt := fun x hx => h.lt x (List.mem_of_mem_erase hx)
    free := h.free.update_out hids
    ready := h.ready.update_out hids
    busy := by
      show (o.busyCount + 2 ^ 32 - 1) % 2 ^ 32 = (held.erase (t, id)).length
      have hcount : bufferCount = 8 := rfl
      rw [List.length_erase_of_mem hmem, hbusy]
      omega
    next_free := hlt
    next_ready := h.next_ready }

end Owned

end Ipcl.HeQat
