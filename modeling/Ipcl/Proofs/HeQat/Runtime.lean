/-
The runtime refines the pipeline.

A state of the runtime is related to a state of the abstract pipeline when each ring
and each list holds the queue of the same name and the bookkeeping of the buffers is in
order.  Every section either waits or makes the step of the pipeline that is named
after it, so what the pipeline keeps, the order of every lane, holds of the rings.
-/
import Ipcl.Proofs.HeQat.Buffers
import Ipcl.Proofs.HeQat.Rings
import Ipcl.Spec.Pipeline

namespace Ipcl.HeQat

/-! ### The queues, read off the slots -/

section
variable {ρ : Type} {b : RequestBuffer ρ} {l : TaskRequestList ρ} {q : List ρ}

theorem filterMap_range {f : ℕ → Option ρ} {n : ℕ} (hlen : q.length = n)
    (hget : ∀ i (hi : i < q.length), f i = some q[i]) : (List.range n).filterMap f = q := by
  have hmap : (List.range n).map f = q.map some := by
    apply List.ext_getElem
    · simp [hlen]
    · intro i hi hi'
      rw [List.getElem_map, List.getElem_range, List.getElem_map]
      exact hget i (by simpa using hi')
  have hid := congrArg (List.filterMap id) hmap
  rw [List.filterMap_map, List.filterMap_map] at hid
  simpa using hid

theorem Carries.unread (h : Carries b q) : b.unread = q := by
  refine filterMap_range h.count_eq.symm fun i hi => ?_
  have hget := h.get i (by simpa using hi)
  rwa [List.getElem_map] at hget

/-- The requests of a list from place `i` on are `q`. -/
structure Remaining (l : TaskRequestList ρ) (i : ℕ) (q : List ρ) : Prop where
  count_eq : l.count = i + q.length
  le_size : i + q.length ≤ bufferSize
  get : ∀ j (hj : j < q.length), l.request (i + j) = some q[j]

theorem Lists.remaining (h : Lists l q) : Remaining l 0 q where
  count_eq := by rw [Nat.zero_add, h.count_eq]
  le_size := by rw [Nat.zero_add]; exact h.le_size
  get j hj := by rw [Nat.zero_add]; exact h.get j hj

theorem Remaining.from_eq {i : ℕ} (h : Remaining l i q) : l.from i = q := by
  refine filterMap_range ?_ h.get
  rw [h.count_eq, Nat.add_sub_cancel_left]

end

namespace Runtime

variable {τ ι : Type}

/-- The lane of a request. -/
def lane (r : Request ι) : Option ℕ := r.via

/-- Where the scheduler's list must be empty, and its buffer be one. -/
def SchedulerOk : SchedulerAt → List (Request ι) → Prop
  | .select, hand => hand = []
  | .extract index, hand => hand = [] ∧ index < bufferCount
  | .submit, _ => True

/-- The queues of the runtime are those of the pipeline. -/
structure Related (s : State τ ι) (t : Pipeline.State ℕ (Request ι)) : Prop where
  owned : Owned s.outstanding s.held
  submitted : t.submitted = s.submitted
  delivered : t.delivered = s.dispatched
  lanes : ∀ i < bufferCount, Carries (s.outstanding.buffer i) (t.lanes i)
  no_lane : ∀ i, bufferCount ≤ i → t.lanes i = []
  trunk : Carries s.heQatBuffer t.trunk
  hand : Lists s.schedulerList t.hand
  scheduler : SchedulerOk s.scheduler t.hand
  batch : Remaining s.processingList s.processed t.batch

theorem Related.initial :
    Related (State.initial : State τ ι) ⟨[], fun _ => [], [], [], [], []⟩ where
  owned := Owned.initial
  submitted := rfl
  delivered := rfl
  lanes _ _ := Carries.initial
  no_lane _ _ := rfl
  trunk := Carries.initial
  hand := Lists.empty
  scheduler := rfl
  batch := Lists.empty.remaining

variable [DecidableEq τ] [DecidableEq ι]

/-- A section waits, or makes steps of the pipeline. -/
def Matched (s : State τ ι) (t : Pipeline.State ℕ (Request ι)) (a : Action τ ι) : Prop :=
  step s a = .error .blocked ∨ ∃ s', step s a = .ok s' ∧
    ∃ bs t', (Pipeline.system lane).run t bs = some t' ∧ Related s' t'

namespace Related

variable {s : State τ ι} {t : Pipeline.State ℕ (Request ι)} (h : Related s t)
include h

omit [DecidableEq τ] [DecidableEq ι] in
/-- A ring changes together with its lane. -/
theorem update_lane {i : ℕ} (hi : i < bufferCount) {b : RequestBuffer (Request ι)}
    {q : List (Request ι)} (hb : Carries b q) :
    (∀ j < bufferCount, Carries (Function.update s.outstanding.buffer i b j)
        (Function.update t.lanes i q j)) ∧
      ∀ j, bufferCount ≤ j → Function.update t.lanes i q j = [] := by
  constructor
  · intro j hj
    by_cases hji : j = i
    · rw [hji, Function.update_self, Function.update_self]
      exact hb
    · rw [Function.update_of_ne hji, Function.update_of_ne hji]
      exact h.lanes j hj
  · intro j hj
    rw [Function.update_of_ne (by omega)]
    exact h.no_lane j hj

theorem acquire (u : τ) (bufferId : ℕ) : Matched s t (.acquire u bufferId) := by
  rcases h.owned.acquire u bufferId with hb | ⟨id, o', ho, hbuf, howned⟩
  · left
    rw [step, hb, Section.bind_error]
  · right
    refine ⟨{ s with outstanding := o', held := (u, id) :: s.held }, ?_, [], t, rfl, ?_⟩
    · rw [step, ho]
      rfl
    · exact { h with owned := howned, lanes := fun i hi => by rw [hbuf]; exact h.lanes i hi }

theorem release (u : τ) (bufferId : ℕ) : Matched s t (.release u bufferId) := by
  by_cases hmem : (u, bufferId) ∈ s.held
  · right
    obtain ⟨o', ho, hbuf, howned⟩ := h.owned.release hmem
    refine ⟨{ s with outstanding := o', held := s.held.erase (u, bufferId) }, ?_, [], t, rfl, ?_⟩
    · rw [step, waitWhile_ok (not_not.mpr hmem), Section.bind_ok, ho]
      rfl
    · exact { h with owned := howned, lanes := fun i hi => by rw [hbuf]; exact h.lanes i hi }
  · left
    rw [step, waitWhile_blocked hmem, Section.bind_error]

theorem submit (u : τ) (bufferId : ℕ) (ref : ι) : Matched s t (.submit u bufferId ref) := by
  by_cases hc : (u, bufferId) ∉ s.held ∨ ⟨some bufferId, ref⟩ ∈ s.submitted
  · left
    rw [step, waitWhile_blocked hc, Section.bind_error]
  push Not at hc
  have hlt : bufferId < bufferCount := h.owned.lt _ hc.1
  have hstep : step s (.submit u bufferId ref) = submitTo s bufferId ⟨some bufferId, ref⟩ := by
    rw [step, waitWhile_ok (by push Not; exact hc), Section.bind_ok]
  rcases submitRequest_spec (h.lanes bufferId hlt) ⟨some bufferId, ref⟩ with hb | ⟨b', hb, hq⟩
  · left
    rw [hstep, submitTo, load_ok hlt, Section.bind_ok, hb, Section.bind_error]
  · right
    have habs : (Pipeline.system lane).run t [.submit ⟨some bufferId, ref⟩] = some { t with
        submitted := t.submitted ++ [⟨some bufferId, ref⟩]
        lanes := Function.update t.lanes bufferId
          (t.lanes bufferId ++ [⟨some bufferId, ref⟩]) } := by
      refine Pipeline.run_of_step lane ?_
      rw [Pipeline.step, if_neg (h.submitted ▸ hc.2)]
      rfl
    obtain ⟨hlanes, hout⟩ := h.update_lane hlt hq
    refine ⟨{ s with
      outstanding := { s.outstanding with
        buffer := Function.update s.outstanding.buffer bufferId b' }
      submitted := s.submitted ++ [⟨some bufferId, ref⟩] }, ?_, _, _, habs, ?_⟩
    · rw [hstep, submitTo, load_ok hlt, Section.bind_ok, hb]
      rfl
    · exact { h with
        owned := { h.owned with }
        submitted := by rw [h.submitted]
        lanes := hlanes
        no_lane := hout }

theorem submitDirect (ref : ι) : Matched s t (.submitDirect ref) := by
  by_cases hc : ⟨none, ref⟩ ∈ s.submitted
  · left
    rw [step, waitWhile_blocked hc, Section.bind_error]
  rcases submitRequest_spec h.trunk ⟨none, ref⟩ with hb | ⟨b', hb, hq⟩
  · left
    rw [step, waitWhile_ok hc, Section.bind_ok, hb, Section.bind_error]
  · right
    have habs : (Pipeline.system lane).run t [.submit ⟨none, ref⟩] = some { t with
        submitted := t.submitted ++ [⟨none, ref⟩]
        trunk := t.trunk ++ [⟨none, ref⟩] } := by
      refine Pipeline.run_of_step lane ?_
      rw [Pipeline.step, if_neg (h.submitted ▸ hc)]
      rfl
    refine ⟨{ s with heQatBuffer := b', submitted := s.submitted ++ [⟨none, ref⟩] }, ?_, _, _,
      habs, ?_⟩
    · rw [step, waitWhile_ok hc, Section.bind_ok, hb]
      rfl
    · exact { h with
        submitted := by rw [h.submitted]
        trunk := hq }

theorem select : Matched s t .select := by
  by_cases hat : s.scheduler = .select
  swap
  · left
    rw [step, waitWhile_blocked hat, Section.bind_error]
  by_cases hbusy : s.outstanding.busyCount ≤ 0
  · left
    rw [step, waitWhile_ok (not_not.mpr hat), Section.bind_ok, pullSelect,
      waitWhile_blocked hbusy, Section.bind_error, Section.bind_error]
  right
  have hhand : t.hand = [] := by
    have hs := h.scheduler
    rwa [hat] at hs
  obtain ⟨found, hfound⟩ : ∃ found, found = (List.range bufferCount).find? fun index =>
      s.outstanding.readyBuffer index ≠ 0 ∧ (s.outstanding.buffer index).count ≠ 0 := ⟨_, rfl⟩
  have hpull : pullSelect s.outstanding = .ok found := by
    rw [pullSelect, waitWhile_ok hbusy, Section.bind_ok, hfound]
    rfl
  refine ⟨{ s with
    schedulerList := { s.schedulerList with count := 0 }
    scheduler := afterSelect found }, ?_, [], t, rfl, ?_⟩
  · rw [step, waitWhile_ok (not_not.mpr hat), Section.bind_ok, hpull]
    rfl
  · refine { h with hand := hhand ▸ Lists.zero_count s.schedulerList, scheduler := ?_ }
    cases found with
    | none => trivial
    | some index =>
        have hmem := List.mem_of_find?_eq_some hfound.symm
        exact ⟨hhand, List.mem_range.mp hmem⟩

theorem extract : Matched s t .extract := by
  cases hat : s.scheduler with
  | select =>
      left
      simp only [step, hat]
  | submit =>
      left
      simp only [step, hat]
  | extract index =>
      have hs := h.scheduler
      rw [hat] at hs
      obtain ⟨hhand, hlt⟩ := hs
      have hstep : step s .extract = extractFrom s index := by
        simp only [step, hat]
      rcases pullExtract_spec (h.lanes index hlt) s.schedulerList bufferSize with
        hb | ⟨l', b', hb, hl, hq⟩
      · left
        rw [hstep, extractFrom, load_ok hlt, Section.bind_ok, hb, Section.bind_error]
      · right
        obtain ⟨n, hn⟩ : ∃ n, n = min (t.lanes index).length bufferSize := ⟨_, rfl⟩
        rw [← hn] at hl hq
        have habs : (Pipeline.system lane).run t [.pull index n] = some { t with
            hand := (t.lanes index).take n
            lanes := Function.update t.lanes index ((t.lanes index).drop n) } := by
          refine Pipeline.run_of_step lane ?_
          rw [Pipeline.step, if_pos hhand]
        obtain ⟨hlanes, hout⟩ := h.update_lane hlt hq
        refine ⟨{ s with
          outstanding := { s.outstanding with
            buffer := Function.update s.outstanding.buffer index b' }
          schedulerList := l'
          scheduler := .submit }, ?_, _, _, habs, ?_⟩
        · rw [hstep, extractFrom, load_ok hlt, Section.bind_ok, hb]
          rfl
        · exact { h with
            owned := { h.owned with }
            lanes := hlanes
            no_lane := hout
            hand := hl
            scheduler := trivial }

theorem submitList : Matched s t .submitList := by
  by_cases hat : s.scheduler = .submit
  swap
  · left
    rw [step, waitWhile_blocked hat, Section.bind_error]
  rcases submitRequestList_spec h.trunk h.hand with hb | ⟨b', l', hb, hq, hl⟩
  · left
    rw [step, waitWhile_ok (not_not.mpr hat), Section.bind_ok, hb, Section.bind_error]
  · right
    refine ⟨{ s with heQatBuffer := b', schedulerList := l', scheduler := .select }, ?_,
      [.forward], { t with hand := [], trunk := t.trunk ++ t.hand }, rfl, ?_⟩
    · rw [step, waitWhile_ok (not_not.mpr hat), Section.bind_ok, hb]
      rfl
    · exact { h with trunk := hq, hand := hl, scheduler := rfl }

theorem read (maxRequests : ℕ) : Matched s t (.read maxRequests) := by
  by_cases hdone : s.processingList.count = 0
  swap
  · left
    rw [step, waitWhile_blocked hdone, Section.bind_error]
  have hbatch : t.batch = [] := by
    have hcount := h.batch.count_eq
    exact List.length_eq_zero_iff.mp (by omega)
  rcases readRequestList_spec h.trunk s.processingList maxRequests with
    hb | ⟨l', b', hb, hl, hq⟩
  · left
    rw [step, waitWhile_ok (not_not.mpr hdone), Section.bind_ok, hb, Section.bind_error]
  · right
    obtain ⟨n, hn⟩ : ∃ n, n = min t.trunk.length maxRequests := ⟨_, rfl⟩
    rw [← hn] at hl hq
    have habs : (Pipeline.system lane).run t [.read n]
        = some { t with batch := t.trunk.take n, trunk := t.trunk.drop n } := by
      refine Pipeline.run_of_step lane ?_
      rw [Pipeline.step, if_pos hbatch]
    refine ⟨{ s with processingList := l', heQatBuffer := b', processed := 0 }, ?_, _, _,
      habs, ?_⟩
    · rw [step, waitWhile_ok (not_not.mpr hdone), Section.bind_ok, hb]
      rfl
    · exact { h with trunk := hq, batch := hl.remaining }

theorem dispatch : Matched s t .dispatch := by
  by_cases hend : s.processed ≥ s.processingList.count
  · left
    rw [step, waitWhile_blocked hend, Section.bind_error]
  right
  have hcount := h.batch.count_eq
  have hsize := h.batch.le_size
  cases hbatch : t.batch with
  | nil =>
      rw [hbatch, List.length_nil] at hcount
      omega
  | cons r rest =>
      have hfirst : s.processingList.request s.processed = some r := by
        have hget := h.batch.get 0 (by rw [hbatch]; simp)
        simpa [hbatch] using hget
      rw [hbatch, List.length_cons] at hcount hsize
      have habs : (Pipeline.system lane).run t [.deliver]
          = some { t with batch := rest, delivered := t.delivered ++ [r] } := by
        refine Pipeline.run_of_step lane ?_
        rw [Pipeline.step, hbatch]
      have hlt : s.processed < bufferSize := by omega
      have hstep : step s .dispatch = dispatchNext s := by
        rw [step, waitWhile_ok hend, Section.bind_ok]
      have hnext : ∀ j (hj : j < rest.length),
          Function.update s.processingList.request s.processed none (s.processed + 1 + j)
            = some rest[j] := by
        intro j hj
        have hget := h.batch.get (j + 1) (by rw [hbatch]; simpa using hj)
        rw [Function.update_of_ne (by omega), show s.processed + 1 + j = s.processed + (j + 1) by
          omega, hget]
        simp [hbatch]
      by_cases hlast : s.processed + 1 = s.processingList.count
      · have hrest : rest = [] := List.length_eq_zero_iff.mp (by omega)
        refine ⟨{ s with
          processingList :=
            { request := Function.update s.processingList.request s.processed none, count := 0 }
          processed := 0
          dispatched := s.dispatched ++ [r] }, ?_, _, _, habs, ?_⟩
        · simp only [hstep, dispatchNext, load_ok hlt, Section.bind_ok, hfirst, store_ok hlt,
            if_pos hlast]
          rfl
        · exact { h with
            delivered := by rw [h.delivered]
            batch := by
              rw [hrest]
              exact (Lists.zero_count { s.processingList with
                request := Function.update s.processingList.request s.processed none }).remaining }
      · refine ⟨{ s with
          processingList := { s.processingList with
            request := Function.update s.processingList.request s.processed none }
          processed := s.processed + 1
          dispatched := s.dispatched ++ [r] }, ?_, _, _, habs, ?_⟩
        · simp only [hstep, dispatchNext, load_ok hlt, Section.bind_ok, hfirst, store_ok hlt,
            if_neg hlast]
          rfl
        · exact { h with
            delivered := by rw [h.delivered]
            batch := ⟨by rw [hcount, Nat.add_assoc, Nat.add_comm 1], by
              rw [Nat.add_assoc, Nat.add_comm 1]
              exact hsize, hnext⟩ }

/-- Every section waits or makes steps of the pipeline. -/
theorem matched (a : Action τ ι) : Matched s t a := by
  cases a with
  | acquire u bufferId => exact h.acquire u bufferId
  | release u bufferId => exact h.release u bufferId
  | submit u bufferId ref => exact h.submit u bufferId ref
  | submitDirect ref => exact h.submitDirect ref
  | select => exact h.select
  | extract => exact h.extract
  | submitList => exact h.submitList
  | read maxRequests => exact h.read maxRequests
  | dispatch => exact h.dispatch

end Related

/-- The runtime refines the pipeline. -/
theorem refines : (system τ ι).Refines (Pipeline.system lane) Related where
  init s hs := ⟨_, rfl, hs ▸ Related.initial⟩
  step s a s' t h hs := by
    have hstep : HeQat.Runtime.step s a = .ok s' := Section.toOption_eq_some.mp hs
    rcases h.matched a with hb | ⟨s'', hok, hmatch⟩
    · rw [hb] at hstep
      cases hstep
    · rw [hok] at hstep
      cases hstep
      exact hmatch

/-! ### Exclusive ownership of the outstanding buffers -/

/-- The bookkeeping of the buffers, as its users need it. -/
structure Exclusive (s : State τ ι) : Prop where
  /-- the busy count counts the buffers marked as not free -/
  busy_free : s.outstanding.busyCount
    = (List.range bufferCount).countP fun i => s.outstanding.freeBuffer i = 0
  /-- and those marked as ready -/
  busy_ready : s.outstanding.busyCount
    = (List.range bufferCount).countP fun i => s.outstanding.readyBuffer i = 1
  busy_le : s.outstanding.busyCount ≤ bufferCount
  /-- giving back a buffer that is held does not wrap the count -/
  release_pos : ∀ u id, (u, id) ∈ s.held → 0 < s.outstanding.busyCount
  /-- no buffer is held twice -/
  owners : (s.held.map (·.2)).Nodup
  /-- an acquisition that does not wait finds a free buffer, and returns it -/
  found : s.outstanding.busyCount < bufferCount → ∃ id < bufferCount,
    scanFree s.outstanding.freeBuffer bufferCount s.outstanding.nextFreeBuffer = some id ∧
      s.outstanding.freeBuffer id ≠ 0 ∧ id ∉ s.held.map (·.2) ∧
      ∀ bufferId, ∃ o', acquireBuffer s.outstanding bufferId = .ok (id, o')
  hints : s.outstanding.nextFreeBuffer < bufferCount ∧ s.outstanding.nextReadyBuffer < bufferCount

omit [DecidableEq τ] [DecidableEq ι] in
theorem exclusive_of_owned {s : State τ ι} (h : Owned s.outstanding s.held) : Exclusive s where
  busy_free := h.countP_free.symm
  busy_ready := h.countP_ready.symm
  busy_le := h.busy_le
  release_pos u id hmem := by
    rw [h.busy]
    exact List.length_pos_of_mem hmem
  owners := h.nodup
  found hroom := by
    obtain ⟨id, hscan, hlt, hfree, hnew⟩ := h.scan hroom
    exact ⟨id, hlt, hscan, hfree, hnew, fun bufferId =>
      ⟨_, h.acquire_run hroom hscan hlt bufferId⟩⟩
  hints := ⟨h.next_free, h.next_ready⟩

/--
**No two threads hold one buffer.**

In every state the runtime can reach, the busy count is the number of buffers in use,
and an acquisition that gets past its wait returns a buffer that was free.
-/
theorem exclusive_ownership {s : State τ ι} (h : (system τ ι).Reachable s) : Exclusive s := by
  obtain ⟨t, -, hR⟩ := refines.reachable h
  exact exclusive_of_owned hR.owned

/-- Two threads take a buffer each, and the first gives its one back. -/
theorem exclusive_ownership_two : ∃ s, (system ℕ ℕ).run State.initial
    [.acquire 1 7, .acquire 2 7, .release 1 0] = some s ∧ Exclusive s := by
  obtain ⟨s, hs⟩ := Option.isSome_iff_exists.mp (show ((system ℕ ℕ).run State.initial
    [.acquire 1 7, .acquire 2 7, .release 1 0]).isSome by decide)
  exact ⟨s, hs, exclusive_ownership (.run (.init rfl) (fun _ _ _ => trivial) hs)⟩

/-! ### Every request once -/

/-- The pipeline, as its users need it. -/
structure ExactlyOnce (s : State τ ι) : Prop where
  /-- the indices of every ring are slots, and its count is the number of unread requests -/
  rings : ∀ b, b = s.heQatBuffer ∨ (∃ i < bufferCount, b = s.outstanding.buffer i) →
    b.nextFreeSlot < bufferSize ∧ b.nextDataSlot < bufferSize ∧ b.count ≤ bufferSize ∧
      b.unread.length = b.count
  /-- nothing but a wait stops a section: no assertion fails, no index is out of range -/
  asserts : ∀ a e, step s a = .error e → e = .blocked
  /-- the places together hold every submitted request, each of them once -/
  places : (s.ahead ++ s.outstandingRequests).Perm s.submitted
  nodup : s.submitted.Nodup
  /-- what has left an outstanding buffer, and what has not, is what was submitted to it,
  in that order -/
  order : ∀ i < bufferCount,
    viaBuffer i s.submitted = viaBuffer i s.ahead ++ (s.outstanding.buffer i).unread
  /-- so its requests are dispatched in the order of their submission -/
  dispatched : ∀ i, viaBuffer i s.dispatched <+: viaBuffer i s.submitted

namespace Related

variable {s : State τ ι} {t : Pipeline.State ℕ (Request ι)} (h : Related s t)
include h

omit [DecidableEq τ] [DecidableEq ι] in
/-- The queues of the runtime, read off the slots, are those of the pipeline. -/
theorem ahead_eq : s.ahead = t.flow := by
  rw [State.ahead, Pipeline.State.flow, h.delivered, h.batch.from_eq, h.trunk.unread,
    h.hand.remaining.from_eq]

omit [DecidableEq τ] [DecidableEq ι] in
theorem outstandingRequests_eq :
    s.outstandingRequests = (List.range bufferCount).flatMap t.lanes :=
  List.flatMap_congr fun i hi => (h.lanes i (List.mem_range.mp hi)).unread

theorem exactlyOnce (hord : t.Ordered lane) : ExactlyOnce s where
  rings := by
    have hring : ∀ {b : RequestBuffer (Request ι)} {q : List (Request ι)}, Carries b q →
        b.nextFreeSlot < bufferSize ∧ b.nextDataSlot < bufferSize ∧ b.count ≤ bufferSize ∧
          b.unread.length = b.count := by
      intro b q hb
      exact ⟨hb.free_lt, hb.next_lt, hb.le_size, by rw [hb.unread, hb.count_eq]⟩
    rintro b (rfl | ⟨i, hi, rfl⟩)
    · exact hring h.trunk
    · exact hring (h.lanes i hi)
  asserts a e he := by
    rcases h.matched a with hb | ⟨s', hok, -⟩
    · rw [hb] at he
      exact (Except.error.inj he).symm
    · rw [hok] at he
      cases he
  places := by
    rw [h.ahead_eq, h.outstandingRequests_eq, ← h.submitted]
    refine hord.perm List.nodup_range fun i hi => ?_
    by_contra hout
    exact hi (h.no_lane i (Nat.le_of_not_lt fun hlt => hout (List.mem_range.mpr hlt)))
  nodup := h.submitted ▸ hord.nodup
  order i hi := by
    rw [← h.submitted, h.ahead_eq, (h.lanes i hi).unread]
    exact hord.order (some i)
  dispatched i := by
    rw [← h.submitted, ← h.delivered]
    exact hord.delivered_prefix (some i)

end Related

/--
**Every request is in one place, and no buffer's requests change order.**

In every state the runtime can reach, whatever the interleaving of its threads: the
rings are consistent, nothing but a wait stops a thread, and the requests submitted so
far are those in the rings, in the lists of the two threads and already dispatched,
each of them once and in the order of submission.
-/
theorem exactly_once {s : State τ ι} (h : (system τ ι).Reachable s) : ExactlyOnce s := by
  obtain ⟨t, ht, hR⟩ := refines.reachable h
  exact hR.exactlyOnce (Pipeline.State.Ordered.of_reachable ht)

/-- A request passes through an outstanding buffer while another is submitted behind it. -/
theorem exactly_once_three : ∃ s, (system ℕ ℕ).run State.initial
    [.acquire 1 7, .submit 1 0 10, .submitDirect 11, .select, .extract, .submit 1 0 12,
      .submitList, .read 48, .dispatch, .dispatch] = some s ∧ ExactlyOnce s := by
  obtain ⟨s, hs⟩ := Option.isSome_iff_exists.mp (show ((system ℕ ℕ).run State.initial
    [.acquire 1 7, .submit 1 0 10, .submitDirect 11, .select, .extract, .submit 1 0 12,
      .submitList, .read 48, .dispatch, .dispatch]).isSome by decide)
  exact ⟨s, hs, exactly_once (.run (.init rfl) (fun _ _ _ => trivial) hs)⟩

end Runtime

end Ipcl.HeQat
