/-
A queue in a circular array.

The array has `N` slots; a count, the slot to write next and the slot to read next
say which of them hold what has been written and not yet read.  `Ring.Holds` relates
these numbers and the slots to the queue they stand for.  Writing at the free slot
appends to the queue as long as there is room, and reading at the data slot takes its
first element; nothing else is needed of a ring, however the code writes its loops.

Reading leaves the slots as they are.  Where the slots hold pointers, someone may go
through them once more and leave an empty one behind; `Ring.Filled` is about this second
walk.  It knows of no count, only of what has been written since it was last through.
-/
import Mathlib

namespace Ring

variable {β : Type} {N : ℕ}

/-- The slots `next`, `next + 1`, … (around the end) hold the queue `q`. -/
structure Holds (N : ℕ) (data : ℕ → β) (count free next : ℕ) (q : List β) : Prop where
  length : q.length = count
  le_size : count ≤ N
  next_lt : next < N
  free_eq : free = (next + count) % N
  get : ∀ i (hi : i < q.length), data ((next + i) % N) = q[i]

variable {data : ℕ → β} {count free next : ℕ} {q : List β}

theorem Holds.empty (hN : 0 < N) (data : ℕ → β) : Holds N data 0 0 0 [] where
  length := rfl
  le_size := Nat.zero_le N
  next_lt := hN
  free_eq := (Nat.zero_mod N).symm
  get i hi := absurd hi (Nat.not_lt_zero i)

theorem Holds.free_lt (h : Holds N data count free next q) : free < N := by
  rw [h.free_eq]
  exact Nat.mod_lt _ (Nat.zero_lt_of_lt h.next_lt)

/-- Different places of the queue are different slots. -/
theorem slot_inj {i j : ℕ} (hi : i < N) (hj : j < N)
    (h : (next + i) % N = (next + j) % N) : i = j := by
  have hmod : i ≡ j [MOD N] := Nat.ModEq.add_left_cancel' next h
  exact Nat.ModEq.eq_of_lt_of_lt hmod hi hj

/-- Writing at the free slot appends. -/
theorem Holds.push (h : Holds N data count free next q) (hroom : count < N) (x : β) :
    Holds N (Function.update data free x) (count + 1) ((free + 1) % N) next (q ++ [x]) where
  length := by rw [List.length_append, h.length, List.length_singleton]
  le_size := hroom
  next_lt := h.next_lt
  free_eq := by rw [h.free_eq, Nat.mod_add_mod, Nat.add_assoc]
  get i hi := by
    have hle : i < count + 1 := by simpa [h.length] using hi
    by_cases hlast : i = count
    · have hnew : (q ++ [x])[i] = x := by
        rw [List.getElem_append_right (by rw [h.length, hlast]), List.getElem_singleton]
      rw [hnew, hlast, ← h.free_eq, Function.update_self]
    · have hlt : i < q.length := by
        rw [h.length]
        omega
      have hslot : (next + i) % N ≠ free := by
        rw [h.free_eq]
        intro hc
        exact hlast (slot_inj (by omega) hroom hc)
      rw [Function.update_of_ne hslot, List.getElem_append_left hlt]
      exact h.get i hlt

/-- The slot to read next holds the first element. -/
theorem Holds.head {x : β} {rest : List β} (h : Holds N data count free next (x :: rest)) :
    data next = x := by
  have hget := h.get 0 (by simp)
  rwa [Nat.add_zero, Nat.mod_eq_of_lt h.next_lt] at hget

/-- Reading takes the first element. -/
theorem Holds.pop {x : β} {rest : List β} (h : Holds N data count free next (x :: rest)) :
    Holds N data (count - 1) free ((next + 1) % N) rest where
  length := by
    rw [← h.length, List.length_cons, Nat.add_sub_cancel]
  le_size := (Nat.sub_le count 1).trans h.le_size
  next_lt := Nat.mod_lt _ (Nat.zero_lt_of_lt h.next_lt)
  free_eq := by
    have hpos : 0 < count := by
      rw [← h.length]
      exact Nat.succ_pos _
    rw [h.free_eq, Nat.mod_add_mod]
    congr 1
    omega
  get i hi := by
    have hget := h.get (i + 1) (by simpa using hi)
    rw [Nat.mod_add_mod, Nat.add_assoc, Nat.add_comm 1 i, hget, List.getElem_cons_succ]

/-- What the queue does not hold may be overwritten. -/
theorem Holds.update_of_not_mem (h : Holds N data count free next q) {x : ℕ} (hx : data x ∉ q)
    (y : β) : Holds N (Function.update data x y) count free next q where
  length := h.length
  le_size := h.le_size
  next_lt := h.next_lt
  free_eq := h.free_eq
  get i hi := by
    have hslot : (next + i) % N ≠ x := by
      intro hc
      refine hx ?_
      rw [← hc, h.get i hi]
      exact List.getElem_mem hi
    rw [Function.update_of_ne hslot]
    exact h.get i hi

/-- The slot read next may be overwritten when it has been read. -/
theorem Holds.take {x : β} {rest : List β} (h : Holds N data count free next (x :: rest))
    (hx : x ∉ rest) (y : β) :
    Holds N (Function.update data next y) (count - 1) free ((next + 1) % N) rest :=
  h.pop.update_of_not_mem (h.head.symm ▸ hx) y

/-- A full ring may be read from any slot on. -/
theorem Holds.rotate (h : Holds N data N free next q) {start : ℕ} (hstart : start < N) :
    ∃ k, Holds N data N start start (q.rotate k) := by
  have hnext := h.next_lt
  refine ⟨start + N - next, ?_, le_rfl, hstart, ?_, fun i hi => ?_⟩
  · rw [List.length_rotate, h.length]
  · rw [Nat.add_mod_right, Nat.mod_eq_of_lt hstart]
  · have hlt : (i + (start + N - next)) % q.length < q.length := by
      rw [h.length]
      exact Nat.mod_lt _ (Nat.zero_lt_of_lt hstart)
    rw [List.getElem_rotate, ← h.get _ hlt]
    congr 1
    rw [h.length, Nat.add_mod_mod, show next + (i + (start + N - next)) = start + i + N by omega,
      Nat.add_mod_right]

/-- A ring is not full if one of its slots holds something that is not queued. -/
theorem Holds.not_full (h : Holds N data count free next q) {x : ℕ} (hx : x < N)
    (hmem : data x ∉ q) : count < N := by
  refine lt_of_le_of_ne h.le_size fun hc => hmem ?_
  subst hc
  obtain ⟨k, hk⟩ := h.rotate hx
  have hpos : 0 < (q.rotate k).length := by
    rw [hk.length]
    exact Nat.zero_lt_of_lt hx
  have hget := hk.get 0 hpos
  rw [Nat.add_zero, Nat.mod_eq_of_lt hx] at hget
  rw [hget]
  exact List.mem_rotate.mp (List.getElem_mem hpos)

/-! ### A walk that empties the slots -/

/-- What is found after one element has been written. -/
theorem of_update_some {κ : Type} [DecidableEq κ] {slots : κ → Option β} {x y : κ} {r q : β}
    (h : Function.update slots x (some r) y = some q) :
    y = x ∧ q = r ∨ y ≠ x ∧ slots y = some q := by
  by_cases hy : y = x
  · rw [hy, Function.update_self] at h
    exact Or.inl ⟨hy, (Option.some.inj h).symm⟩
  · rw [Function.update_of_ne hy] at h
    exact Or.inr ⟨hy, h⟩

/-- What is found after one slot has been emptied. -/
theorem of_update_none {κ : Type} [DecidableEq κ] {slots : κ → Option β} {x y : κ} {q : β}
    (h : Function.update slots x none y = some q) : y ≠ x ∧ slots y = some q := by
  by_cases hy : y = x
  · rw [hy, Function.update_self] at h
    cases h
  · rw [Function.update_of_ne hy] at h
    exact ⟨hy, h⟩

/-- From slot `start` on `q` has been written, and the first `w` slots have been emptied since.
Unless the queue has gone around the ring, the others hold the elements not yet reached. -/
structure Filled (N : ℕ) (data : ℕ → Option β) (start : ℕ) (q : List β) (w : ℕ) : Prop where
  start_lt : start < N
  le_size : w ≤ N
  le_length : q.length ≤ N → w ≤ q.length
  emptied : ∀ i < w, data ((start + i) % N) = none
  rest : q.length ≤ N → ∀ i < N, w ≤ i → data ((start + i) % N) = q[i]?
  mem : ∀ x < N, ∀ r, data x = some r → r ∈ q
  inj : ∀ x < N, ∀ y < N, ∀ r, data x = some r → data y = some r → x = y

namespace Filled

variable {slots : ℕ → Option β} {start w : ℕ} {r : β}

theorem empty (hstart : start < N) (hnone : ∀ x < N, slots x = none) :
    Filled N slots start [] 0 where
  start_lt := hstart
  le_size := Nat.zero_le N
  le_length _ := Nat.zero_le _
  emptied i hi := absurd hi (Nat.not_lt_zero i)
  rest _ i _ _ := by
    rw [hnone _ (Nat.mod_lt _ (Nat.zero_lt_of_lt hstart)), List.getElem?_nil]
  mem x hx r hr := by
    rw [hnone x hx] at hr
    cases hr
  inj x hx y _ r hr := by
    rw [hnone x hx] at hr
    cases hr

theorem slot_lt (h : Filled N slots start q w) (i : ℕ) : (start + i) % N < N :=
  Nat.mod_lt _ (Nat.zero_lt_of_lt h.start_lt)

/-- Every slot is some distance from the first. -/
theorem exists_slot (h : Filled N slots start q w) {x : ℕ} (hx : x < N) :
    ∃ i < N, x = (start + i) % N := by
  refine ⟨(x + N - start) % N, Nat.mod_lt _ (Nat.zero_lt_of_lt h.start_lt), ?_⟩
  have hlt := h.start_lt
  rw [Nat.add_mod_mod, show start + (x + N - start) = x + N by omega, Nat.add_mod_right,
    Nat.mod_eq_of_lt hx]

/-- Writing the next element, before the walk. -/
theorem push (h : Filled N slots start q 0) (hr : r ∉ q) :
    Filled N (Function.update slots ((start + q.length) % N) (some r)) start (q ++ [r]) 0 where
  start_lt := h.start_lt
  le_size := h.le_size
  le_length _ := Nat.zero_le _
  emptied i hi := absurd hi (Nat.not_lt_zero i)
  rest hlen i hi _ := by
    rw [List.length_append, List.length_singleton] at hlen
    by_cases hlast : i = q.length
    · rw [hlast, Function.update_self, List.getElem?_append_right le_rfl, Nat.sub_self]
      rfl
    · have hslot : (start + i) % N ≠ (start + q.length) % N := fun hc =>
        hlast (slot_inj hi (by omega) hc)
      rw [Function.update_of_ne hslot, h.rest (by omega) i hi (Nat.zero_le i)]
      rcases Nat.lt_or_ge i q.length with hlt | hge
      · rw [List.getElem?_append_left hlt]
      · rw [List.getElem?_eq_none hge, List.getElem?_eq_none]
        rw [List.length_append, List.length_singleton]
        omega
  mem x hx r' hr' := by
    rcases of_update_some hr' with ⟨-, rfl⟩ | ⟨-, hold⟩
    · exact List.mem_append_right q (List.mem_singleton_self r')
    · exact List.mem_append_left [r] (h.mem x hx r' hold)
  inj x hx y hy r' hxr hyr := by
    -- the new element is in no other slot
    rcases of_update_some hxr with ⟨rfl, rfl⟩ | ⟨-, hxold⟩
    · rcases of_update_some hyr with ⟨rfl, -⟩ | ⟨-, hyold⟩
      · rfl
      · exact absurd (h.mem y hy r' hyold) hr
    · rcases of_update_some hyr with ⟨-, rfl⟩ | ⟨-, hyold⟩
      · exact absurd (h.mem x hx r' hxold) hr
      · exact h.inj x hx y hy r' hxold hyold

/-- The walk finds something before its end only. -/
theorem lt_size (h : Filled N slots start q w) (hr : slots ((start + w) % N) = some r) :
    w < N := by
  refine lt_of_le_of_ne h.le_size fun hc => ?_
  subst hc
  have hfirst := h.emptied 0 (Nat.zero_lt_of_lt h.start_lt)
  rw [Nat.add_zero] at hfirst
  rw [Nat.add_mod_right, hfirst] at hr
  cases hr

/-- Emptying the slot the walk is at. -/
theorem take (h : Filled N slots start q w) (hr : slots ((start + w) % N) = some r) :
    Filled N (Function.update slots ((start + w) % N) none) start q (w + 1) where
  start_lt := h.start_lt
  le_size := h.lt_size hr
  le_length hlen := by
    rw [h.rest hlen w (h.lt_size hr) le_rfl] at hr
    obtain ⟨hlt, -⟩ := List.getElem?_eq_some_iff.mp hr
    exact hlt
  emptied i hi := by
    by_cases hlast : i = w
    · rw [hlast, Function.update_self]
    · have hlt := h.lt_size hr
      have hslot : (start + i) % N ≠ (start + w) % N := fun hc =>
        hlast (slot_inj (by omega) hlt hc)
      rw [Function.update_of_ne hslot]
      exact h.emptied i (by omega)
  rest hlen i hi hle := by
    have hslot : (start + i) % N ≠ (start + w) % N := fun hc => by
      have heq := slot_inj hi (h.lt_size hr) hc
      omega
    rw [Function.update_of_ne hslot]
    exact h.rest hlen i hi (by omega)
  mem x hx r' hr' := h.mem x hx r' (of_update_none hr').2
  inj x hx y hy r' hxr hyr :=
    h.inj x hx y hy r' (of_update_none hxr).2 (of_update_none hyr).2

/-- As long as there is an element left, the walk finds it. -/
theorem next_some (h : Filled N slots start q w) (hlen : q.length ≤ N) (hw : w < q.length) :
    slots ((start + w) % N) = some q[w] := by
  rw [h.rest hlen w (by omega) le_rfl, List.getElem?_eq_getElem hw]

/-- Behind the last element every slot is empty. -/
theorem all_none (h : Filled N slots start q q.length) (hlen : q.length ≤ N) {x : ℕ}
    (hx : x < N) : slots x = none := by
  obtain ⟨i, hi, rfl⟩ := h.exists_slot hx
  rcases Nat.lt_or_ge i q.length with hlt | hge
  · exact h.emptied i hlt
  · rw [h.rest hlen i hi hge, List.getElem?_eq_none hge]

end Filled

end Ring
