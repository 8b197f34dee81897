/-
What the sections do to the queues.

`Carries b q` says that the ring `b` holds the queue `q` of requests, and `Lists l q`
that a thread's list does.  Under it each section either waits, having changed nothing,
or ends with the queues one would expect; no assertion fails and no index is out of
range.  The loops run with a count that is brought up to date only after them, so
their invariant speaks of the count the ring would have at each round.
-/
import Ipcl.HeQat.Ctrl
import Ipcl.Lib.Ring

namespace Ipcl.HeQat

variable {ρ : Type}

/-- The unread requests of a ring are `q`. -/
def Carries (b : RequestBuffer ρ) (q : List ρ) : Prop :=
  Ring.Holds bufferSize b.data b.count b.nextFreeSlot b.nextDataSlot (q.map some)

/-- The requests of a list are `q`. -/
structure Lists (l : TaskRequestList ρ) (q : List ρ) : Prop where
  count_eq : l.count = q.length
  le_size : q.length ≤ bufferSize
  get : ∀ i (hi : i < q.length), l.request i = some q[i]

theorem Carries.initial : Carries (RequestBuffer.initial : RequestBuffer ρ) [] :=
  Ring.Holds.empty (by decide) _

theorem Lists.empty : Lists (TaskRequestList.empty : TaskRequestList ρ) [] where
  count_eq := rfl
  le_size := Nat.zero_le _
  get i hi := absurd hi (Nat.not_lt_zero i)

theorem Lists.zero_count (l : TaskRequestList ρ) : Lists { l with count := 0 } [] where
  count_eq := rfl
  le_size := Nat.zero_le _
  get i hi := absurd hi (Nat.not_lt_zero i)

variable {b : RequestBuffer ρ} {l : TaskRequestList ρ} {q m : List ρ}

theorem Carries.holds (h : Carries b q) :
    Ring.Holds bufferSize b.data b.count b.nextFreeSlot b.nextDataSlot (q.map some) := h

theorem Carries.count_eq (h : Carries b q) : b.count = q.length := by
  rw [← h.length, List.length_map]

theorem Carries.length_le (h : Carries b q) : q.length ≤ bufferSize :=
  h.count_eq ▸ h.le_size

theorem Lists.eq_nil (h : Lists l q) (hcount : l.count = 0) : q = [] :=
  List.length_eq_zero_iff.mp (h.count_eq ▸ hcount)

theorem submitRequest_run (h : Carries b q) (hroom : b.count < bufferSize) (r : ρ) :
    submitRequest b r = .ok { b with
      data := Function.update b.data b.nextFreeSlot (some r)
      nextFreeSlot := (b.nextFreeSlot + 1) % bufferSize
      count := b.count + 1 } := by
  rw [submitRequest, waitWhile_ok (by omega), Section.bind_ok, assertThat_ok hroom,
    Section.bind_ok, store_ok h.free_lt]
  rfl

/-- `submit_request` waits for a free slot, and appends. -/
theorem submitRequest_spec (h : Carries b q) (r : ρ) :
    submitRequest b r = .error .blocked ∨
      ∃ b', submitRequest b r = .ok b' ∧ Carries b' (q ++ [r]) := by
  by_cases hfull : b.count ≥ bufferSize
  · left
    rw [submitRequest, waitWhile_blocked hfull, Section.bind_error]
  · right
    have hpush := Ring.Holds.push h (by omega) (some r)
    rw [← List.map_singleton, ← List.map_append] at hpush
    exact ⟨_, submitRequest_run h (by omega) r, hpush⟩

/-! ### `submit_request_list` -/

/-- After `i` rounds the first `i` requests have been written. -/
structure Submitting (b : RequestBuffer ρ) (l : TaskRequestList ρ) (q m : List ρ) (i : ℕ)
    (st : RequestBuffer ρ × TaskRequestList ρ) : Prop where
  holds : Ring.Holds bufferSize st.1.data (b.count + i) st.1.nextFreeSlot st.1.nextDataSlot
    ((q ++ m.take i).map some)
  count : st.1.count = b.count
  listed : ∀ j (hj : j < m.length), i ≤ j → st.2.request j = some m[j]

theorem submitNext_spec
    (hroom : b.count + m.length ≤ bufferSize) {i : ℕ} (hi : i < m.length)
    {st : RequestBuffer ρ × TaskRequestList ρ} (h : Submitting b l q m i st) :
    ∃ st', submitNext st i = .ok st' ∧ Submitting b l q m (i + 1) st' := by
  have hrun : submitNext st i = .ok
      ({ st.1 with
          data := Function.update st.1.data st.1.nextFreeSlot (some m[i])
          nextFreeSlot := (st.1.nextFreeSlot + 1) % bufferSize },
        { st.2 with request := Function.update st.2.request i none }) := by
    rw [submitNext, load_ok (by omega), Section.bind_ok, h.listed i hi le_rfl,
      store_ok h.holds.free_lt, Section.bind_ok, store_ok (by omega)]
    rfl
  refine ⟨_, hrun, ?_, h.count, fun j hj hle => ?_⟩
  · have hpush := h.holds.push (by omega) (some m[i])
    rwa [← List.map_singleton, ← List.map_append, List.append_assoc,
      List.take_append_getElem hi, Nat.add_assoc] at hpush
  · show Function.update st.2.request i none j = some m[j]
    rw [Function.update_of_ne (by omega)]
    exact h.listed j hj (by omega)

/-- With room for the whole list, `submit_request_list` appends it. -/
theorem submitRequestList_run (h : Carries b q) (hl : Lists l m) (hne : l.count ≠ 0)
    (hwait : ¬ (b.count ≥ bufferSize ∨ bufferSize - b.count < l.count)) :
    ∃ b' l', submitRequestList b l = .ok (b', l') ∧ Carries b' (q ++ m) ∧ Lists l' [] := by
  have hcount := hl.count_eq
  have hroom : b.count + m.length ≤ bufferSize := by omega
  have hinit : Submitting b l q m 0 (b, l) :=
    ⟨by simpa using Carries.holds h, rfl, fun j hj _ => hl.get j hj⟩
  obtain ⟨⟨b', l'⟩, hloop, hI⟩ := Vec.foldlM_range_inv (f := submitNext) hinit m.length
    fun i hi st hst => submitNext_spec hroom hi hst
  have hholds := hI.holds
  rw [List.take_length] at hholds
  refine ⟨{ b' with count := b'.count + l.count }, { l' with count := 0 }, ?_, ?_,
    Lists.zero_count l'⟩
  · rw [submitRequestList, if_neg hne, waitWhile_ok hwait, Section.bind_ok,
      assertThat_ok (by omega), Section.bind_ok, hcount, hloop]
    rfl
  · show Ring.Holds bufferSize b'.data (b'.count + l.count) _ _ _
    rw [hI.count, hcount]
    exact hholds

/-- `submit_request_list` waits for this room, unless its list is empty. -/
theorem submitRequestList_spec (h : Carries b q) (hl : Lists l m) :
    submitRequestList b l = .error .blocked ∨
      ∃ b' l', submitRequestList b l = .ok (b', l') ∧ Carries b' (q ++ m) ∧ Lists l' [] := by
  by_cases hzero : l.count = 0
  · right
    refine ⟨b, l, if_pos hzero, ?_, ?_⟩
    · rwa [hl.eq_nil hzero, List.append_nil]
    · rwa [hl.eq_nil hzero] at hl
  by_cases hwait : b.count ≥ bufferSize ∨ bufferSize - b.count < l.count
  · left
    rw [submitRequestList, if_neg hzero, waitWhile_blocked hwait, Section.bind_error]
  · exact Or.inr (submitRequestList_run h hl hzero hwait)

/-! ### `read_request_list` and the second section of the pull -/

/-- After `i` rounds the first `i` requests have been copied, and the ring is past them.
`count` is what the loop keeps in the count of the ring. -/
structure Reading (count : ℕ → ℕ) (b : RequestBuffer ρ) (q : List ρ) (i : ℕ)
    (st : TaskRequestList ρ × RequestBuffer ρ) : Prop where
  holds : Ring.Holds bufferSize st.2.data (b.count - i) st.2.nextFreeSlot st.2.nextDataSlot
    ((q.drop i).map some)
  count : st.2.count = count i
  listed : ∀ j (hj : j < q.length), j < i → st.1.request j = some q[j]

/-- One round of either loop, up to what it does to the count of the ring. -/
theorem reading_next {count : ℕ → ℕ} (hq : q.length ≤ bufferSize) {i : ℕ} (hi : i < q.length)
    {st : TaskRequestList ρ × RequestBuffer ρ} (h : Reading count b q i st) :
    load bufferSize st.2.data st.2.nextDataSlot = .ok (some q[i]) ∧
      store bufferSize st.1.request i (some q[i])
        = .ok (Function.update st.1.request i (some q[i])) ∧
      ∀ c, c = count (i + 1) → Reading count b q (i + 1)
        ({ st.1 with request := Function.update st.1.request i (some q[i]) },
          { st.2 with count := c, nextDataSlot := (st.2.nextDataSlot + 1) % bufferSize }) := by
  have hcons : (q.drop i).map some = some q[i] :: (q.drop (i + 1)).map some := by
    rw [List.drop_eq_getElem_cons hi, List.map_cons]
  have hholds := h.holds
  rw [hcons] at hholds
  refine ⟨?_, store_ok (by omega) _, fun c hc => ⟨?_, hc, fun j hj hlt => ?_⟩⟩
  · rw [load_ok hholds.next_lt, hholds.head]
  · have hpop := hholds.pop
    rwa [Nat.sub_sub] at hpop
  · show Function.update st.1.request i (some q[i]) j = some q[j]
    by_cases hji : j = i
    · subst hji
      rw [Function.update_self]
    · rw [Function.update_of_ne hji]
      exact h.listed j hj (by omega)

theorem readNext_spec (hq : q.length ≤ bufferSize) {i : ℕ} (hi : i < q.length)
    {st : TaskRequestList ρ × RequestBuffer ρ} (h : Reading (fun _ => b.count) b q i st) :
    ∃ st', readNext st i = .ok st' ∧ Reading (fun _ => b.count) b q (i + 1) st' := by
  obtain ⟨hload, hstore, hnext⟩ := reading_next hq hi h
  refine ⟨_, ?_, hnext _ h.count⟩
  rw [readNext, hload, Section.bind_ok, hstore, Section.bind_ok]
  rfl

theorem extractNext_spec (hq : q.length ≤ bufferSize) {i : ℕ} (hi : i < q.length)
    {st : TaskRequestList ρ × RequestBuffer ρ} (h : Reading (fun i => b.count - i) b q i st) :
    ∃ st', extractNext st i = .ok st' ∧ Reading (fun i => b.count - i) b q (i + 1) st' := by
  obtain ⟨hload, hstore, hnext⟩ := reading_next hq hi h
  have hcount : st.2.count - 1 = b.count - (i + 1) := by
    rw [h.count, Nat.sub_sub]
  refine ⟨_, ?_, hnext _ hcount⟩
  rw [extractNext, hload, Section.bind_ok, hstore, Section.bind_ok]
  rfl

/-- The rounds of either loop. -/
theorem reading_loop {f : TaskRequestList ρ × RequestBuffer ρ → ℕ →
      Section (TaskRequestList ρ × RequestBuffer ρ)} {count : ℕ → ℕ}
    (hnext : ∀ i < q.length, ∀ st, Reading count b q i st →
      ∃ st', f st i = .ok st' ∧ Reading count b q (i + 1) st')
    (h : Carries b q) (hzero : b.count = count 0) (l : TaskRequestList ρ) {n : ℕ}
    (hn : n ≤ q.length) :
    ∃ l' b', (List.range n).foldlM f (l, b) = .ok (l', b') ∧ Reading count b q n (l', b') := by
  have hinit : Reading count b q 0 (l, b) :=
    ⟨by simpa using Carries.holds h, hzero, fun j _ hj => absurd hj (Nat.not_lt_zero j)⟩
  obtain ⟨⟨l', b'⟩, hloop, hI⟩ := Vec.foldlM_range_inv (f := f) hinit n
    fun i hi st hst => hnext i (by omega) st hst
  exact ⟨l', b', hloop, hI⟩

/-- The list after `n` rounds. -/
theorem Reading.lists {count : ℕ → ℕ} {n : ℕ} (hq : q.length ≤ bufferSize) (hn : n ≤ q.length)
    {st : TaskRequestList ρ × RequestBuffer ρ} (h : Reading count b q n st) :
    Lists { st.1 with count := n } (q.take n) where
  count_eq := (List.length_take_of_le hn).symm
  le_size := (List.length_take_le n q).trans (hn.trans hq)
  get i hi := by
    rw [List.length_take_of_le hn] at hi
    rw [List.getElem_take]
    exact h.listed i (by omega) hi

/-- When there is a request, `read_request_list` takes up to `max_requests`. -/
theorem readRequestList_run (h : Carries b q) (hne : 0 < b.count) (l : TaskRequestList ρ)
    (maxRequests : ℕ) :
    ∃ l' b', readRequestList l b maxRequests = .ok (l', b') ∧
      Lists l' (q.take (min q.length maxRequests)) ∧
      Carries b' (q.drop (min q.length maxRequests)) := by
  have hcount := h.count_eq
  have hq := h.length_le
  obtain ⟨n, hn⟩ : ∃ n, n = min q.length maxRequests := ⟨_, rfl⟩
  have hmin : (if b.count < maxRequests then b.count else maxRequests) = n := by
    split_ifs <;> omega
  obtain ⟨l', b', hloop, hI⟩ := reading_loop (fun _ hi _ hst => readNext_spec hq hi hst) h rfl l
    (show n ≤ q.length by omega)
  rw [← hn]
  refine ⟨{ l' with count := n }, { b' with count := b'.count - n }, ?_,
    hI.lists hq (by omega), ?_⟩
  · rw [readRequestList, waitWhile_ok (by omega), Section.bind_ok, assertThat_ok (by omega),
      Section.bind_ok, assertThat_ok (by omega), Section.bind_ok]
    simp only [hmin, hloop]
    rfl
  · show Ring.Holds bufferSize b'.data (b'.count - n) _ _ _
    rw [hI.count]
    exact hI.holds

/-- `read_request_list` waits for one. -/
theorem readRequestList_spec (h : Carries b q) (l : TaskRequestList ρ) (maxRequests : ℕ) :
    readRequestList l b maxRequests = .error .blocked ∨
      ∃ l' b', readRequestList l b maxRequests = .ok (l', b') ∧
        Lists l' (q.take (min q.length maxRequests)) ∧
        Carries b' (q.drop (min q.length maxRequests)) := by
  by_cases hempty : b.count ≤ 0
  · left
    rw [readRequestList, waitWhile_blocked hempty, Section.bind_error]
  · exact Or.inr (readRequestList_run h (by omega) l maxRequests)

/-- The second section of the pull takes as many from a buffer. -/
theorem pullExtract_run (h : Carries b q) (hne : 0 < b.count) (l : TaskRequestList ρ)
    (maxRequests : ℕ) :
    ∃ l' b', pullExtract l b maxRequests = .ok (l', b') ∧
      Lists l' (q.take (min q.length maxRequests)) ∧
      Carries b' (q.drop (min q.length maxRequests)) := by
  have hcount := h.count_eq
  have hq := h.length_le
  obtain ⟨n, hn⟩ : ∃ n, n = min q.length maxRequests := ⟨_, rfl⟩
  have hmin : (if b.count < maxRequests then b.count else maxRequests) = n := by
    split_ifs <;> omega
  obtain ⟨l', b', hloop, hI⟩ := reading_loop (fun _ hi _ hst => extractNext_spec hq hi hst) h
    (Nat.sub_zero _).symm l (show n ≤ q.length by omega)
  rw [← hn]
  refine ⟨{ l' with count := n }, b', ?_, hI.lists hq (by omega), ?_⟩
  · rw [pullExtract, waitWhile_ok (by omega), Section.bind_ok, assertThat_ok (by omega),
      Section.bind_ok]
    simp only [hmin]
    rw [assertThat_ok (by omega), Section.bind_ok, hloop]
    rfl
  · rw [Carries, hI.count]
    exact hI.holds

theorem pullExtract_spec (h : Carries b q) (l : TaskRequestList ρ) (maxRequests : ℕ) :
    pullExtract l b maxRequests = .error .blocked ∨
      ∃ l' b', pullExtract l b maxRequests = .ok (l', b') ∧
        Lists l' (q.take (min q.length maxRequests)) ∧
        Carries b' (q.drop (min q.length maxRequests)) := by
  by_cases hempty : b.count ≤ 0
  · left
    rw [pullExtract, waitWhile_blocked hempty, Section.bind_error]
  · exact Or.inr (pullExtract_run h (by omega) l maxRequests)

/-! ### What a walk behind the scheduler relies on -/

/-- Equal but for the count and the slot to read next. -/
structure SameSlots (b b' : RequestBuffer ρ) : Prop where
  data_eq : b'.data = b.data
  free_eq : b'.nextFreeSlot = b.nextFreeSlot
  out_eq : b'.nextDataOut = b.nextDataOut

theorem SameSlots.refl (b : RequestBuffer ρ) : SameSlots b b := ⟨rfl, rfl, rfl⟩

theorem SameSlots.trans {b' b'' : RequestBuffer ρ} (h : SameSlots b b') (h' : SameSlots b' b'') :
    SameSlots b b'' :=
  ⟨h'.data_eq.trans h.data_eq, h'.free_eq.trans h.free_eq, h'.out_eq.trans h.out_eq⟩

/-- What `submit_request` makes of a ring. -/
theorem submitRequest_ok {b' : RequestBuffer ρ} {r : ρ} (h : submitRequest b r = .ok b') :
    b' = { b with
      data := Function.update b.data b.nextFreeSlot (some r)
      nextFreeSlot := (b.nextFreeSlot + 1) % bufferSize
      count := b.count + 1 } := by
  rw [submitRequest] at h
  obtain ⟨-, -, h⟩ := Section.bind_eq_ok.mp h
  obtain ⟨-, -, h⟩ := Section.bind_eq_ok.mp h
  obtain ⟨data, hdata, h⟩ := Section.bind_eq_ok.mp h
  rw [store_eq_ok hdata] at h
  exact (Except.ok.inj h).symm

theorem extractNext_sameSlots {st st' : TaskRequestList ρ × RequestBuffer ρ} {i : ℕ}
    (h : extractNext st i = .ok st') : SameSlots st.2 st'.2 := by
  rw [extractNext] at h
  obtain ⟨_, -, h⟩ := Section.bind_eq_ok.mp h
  obtain ⟨_, -, h⟩ := Section.bind_eq_ok.mp h
  cases h
  exact ⟨rfl, rfl, rfl⟩

theorem pullExtract_sameSlots {l' : TaskRequestList ρ} {b' : RequestBuffer ρ} {n : ℕ}
    (h : pullExtract l b n = .ok (l', b')) : SameSlots b b' := by
  rw [pullExtract] at h
  obtain ⟨-, -, h⟩ := Section.bind_eq_ok.mp h
  obtain ⟨-, -, h⟩ := Section.bind_eq_ok.mp h
  obtain ⟨-, -, h⟩ := Section.bind_eq_ok.mp h
  obtain ⟨⟨l₁, b₁⟩, hloop, h⟩ := Section.bind_eq_ok.mp h
  cases h
  exact Vec.foldlM_ok_inv (I := fun st => SameSlots b st.2)
    (fun _ _ _ _ hst hs => hst.trans (extractNext_sameSlots hs)) (SameSlots.refl b) hloop

theorem readNext_sameSlots {st st' : TaskRequestList ρ × RequestBuffer ρ} {i : ℕ}
    (h : readNext st i = .ok st') : SameSlots st.2 st'.2 := by
  rw [readNext] at h
  obtain ⟨_, -, h⟩ := Section.bind_eq_ok.mp h
  obtain ⟨_, -, h⟩ := Section.bind_eq_ok.mp h
  cases h
  exact ⟨rfl, rfl, rfl⟩

/-- Nobody who reads a ring writes to its slots. -/
theorem readRequestList_sameSlots {l' : TaskRequestList ρ} {b' : RequestBuffer ρ} {n : ℕ}
    (h : readRequestList l b n = .ok (l', b')) : SameSlots b b' := by
  rw [readRequestList] at h
  obtain ⟨-, -, h⟩ := Section.bind_eq_ok.mp h
  obtain ⟨-, -, h⟩ := Section.bind_eq_ok.mp h
  obtain ⟨-, -, h⟩ := Section.bind_eq_ok.mp h
  obtain ⟨⟨l₁, b₁⟩, hloop, h⟩ := Section.bind_eq_ok.mp h
  cases h
  have hsame : SameSlots b b₁ := Vec.foldlM_ok_inv (I := fun st => SameSlots b st.2)
    (fun _ _ _ _ hst hs => hst.trans (readNext_sameSlots hs)) (SameSlots.refl b) hloop
  exact ⟨hsame.data_eq, hsame.free_eq, hsame.out_eq⟩

/-- A slot whose request has left the ring may be overwritten. -/
theorem Carries.update (h : Carries b q) {x : ℕ} {r : ρ} (hx : b.data x = some r) (hr : r ∉ q)
    (y : Option ρ) : Carries { b with data := Function.update b.data x y } q := by
  refine Ring.Holds.update_of_not_mem h ?_ y
  rw [hx]
  intro hmem
  obtain ⟨r', hr', heq⟩ := List.mem_map.mp hmem
  cases heq
  exact hr hr'

/-- A ring without requests in its slots carries none. -/
theorem Carries.eq_nil (h : Carries b q) (hnone : ∀ x < bufferSize, b.data x = none) : q = [] := by
  cases q with
  | nil => rfl
  | cons r rest =>
      have hhead := h.holds.head
      rw [hnone _ h.next_lt] at hhead
      cases hhead

end Ipcl.HeQat
