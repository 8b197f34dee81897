/-
What a release finds, and what it leaves.

Three parties go through the slots of a buffer: the thread that holds it writes them, the
scheduler reads them, and the release empties them.  The writer and the scheduler agree
through the count, which the release never looks at.  Its own hold on the slots is that
it started where the last release stopped, that nobody else writes, and that it empties a
slot only when the request in it has been answered, which is long after the scheduler
has read it.  So the third walk does not disturb the ring, and what it has still to go
through is what the session has queued and not yet freed.

`Session` says this of one buffer and `Memory` of the requests.  Both are kept by every
section, as long as every release is told the number of calls of its session.  Then a
release that comes to its end has gone through all of them.
-/
import Ipcl.HeQat.Sessions
import Ipcl.Proofs.HeQat.Runtime

namespace Ipcl.HeQat

namespace Sessions

open Ipcl.HeQat.Runtime (lane Related)

variable {τ ι : Type}

/-! ### The sections of the runtime -/

section
variable {s s' : Runtime.State τ ι}

/-- The scheduler and the processing thread leave alone what a session relies on. -/
structure Behind (s s' : Runtime.State τ ι) : Prop where
  held : s'.held = s.held
  submitted : s'.submitted = s.submitted
  dispatched : ∀ r ∈ s.dispatched, r ∈ s'.dispatched
  slots : ∀ i, SameSlots (s.outstanding.buffer i) (s'.outstanding.buffer i)

theorem extractFrom_behind {index : ℕ} (h : Runtime.extractFrom s index = .ok s') :
    Behind s s' := by
  rw [Runtime.extractFrom] at h
  obtain ⟨b, hb, h⟩ := Section.bind_eq_ok.mp h
  obtain ⟨⟨l', b'⟩, hpull, h⟩ := Section.bind_eq_ok.mp h
  cases h
  refine ⟨rfl, rfl, fun r hr => hr, fun i => ?_⟩
  by_cases hi : i = index
  · subst hi
    show SameSlots _ (Function.update s.outstanding.buffer i b' i)
    rw [Function.update_self, ← load_eq_ok hb]
    exact pullExtract_sameSlots hpull
  · show SameSlots _ (Function.update s.outstanding.buffer index b' i)
    rw [Function.update_of_ne hi]
    exact SameSlots.refl _

theorem dispatchNext_behind (h : Runtime.dispatchNext s = .ok s') : Behind s s' := by
  rw [Runtime.dispatchNext] at h
  obtain ⟨r, -, h⟩ := Section.bind_eq_ok.mp h
  cases r with
  | none => cases h
  | some r =>
      obtain ⟨request, -, h⟩ := Section.bind_eq_ok.mp h
      have hmem : ∀ q ∈ s.dispatched, q ∈ s.dispatched ++ [r] := fun q hq =>
        List.mem_append_left [r] hq
      split at h
      · cases h
        exact ⟨rfl, rfl, hmem, fun i => SameSlots.refl _⟩
      · cases h
        exact ⟨rfl, rfl, hmem, fun i => SameSlots.refl _⟩

variable [DecidableEq ι]

/-- The runtime is in a state that its own invariants describe. -/
def Traced (s : Runtime.State τ ι) : Prop :=
  ∃ t, (Pipeline.system lane).Reachable t ∧ Related s t

theorem Traced.owned (h : Traced s) : Owned s.outstanding s.held := by
  obtain ⟨t, -, hR⟩ := h
  exact hR.owned

theorem Traced.mem_submitted (h : Traced s) {r : Request ι} (hr : r ∈ s.dispatched) :
    r ∈ s.submitted := by
  obtain ⟨t, ht, hR⟩ := h
  rw [← hR.submitted]
  exact (Pipeline.State.Ordered.of_reachable ht).mem_submitted (hR.delivered ▸ hr)

/-- Emptying a slot whose request has been dispatched. -/
theorem Traced.empty_slot (h : Traced s) {i x : ℕ} (hi : i < bufferCount) {r : Request ι}
    (hx : (s.outstanding.buffer i).data x = some r) (hr : r ∈ s.dispatched) :
    Traced { s with outstanding := { s.outstanding with
      buffer := Function.update s.outstanding.buffer i { s.outstanding.buffer i with
        data := Function.update (s.outstanding.buffer i).data x none } } } := by
  obtain ⟨t, ht, hR⟩ := h
  have hleft : r ∉ t.lanes i :=
    (Pipeline.State.Ordered.of_reachable ht).not_mem_lane (hR.delivered ▸ hr) i
  obtain ⟨hlanes, hout⟩ := hR.update_lane hi ((hR.lanes i hi).update hx hleft none)
  rw [Function.update_eq_self] at hlanes hout
  exact ⟨t, ht, { hR with owned := { hR.owned with }, lanes := hlanes, no_lane := hout }⟩

/-- The slot that the release stops at is no concern of the others. -/
theorem Traced.set_out (h : Traced s) {i : ℕ} (hi : i < bufferCount) (x : ℕ) :
    Traced { s with outstanding := { s.outstanding with
      buffer := Function.update s.outstanding.buffer i { s.outstanding.buffer i with
        nextDataOut := x } } } := by
  obtain ⟨t, ht, hR⟩ := h
  have hsame : Carries { s.outstanding.buffer i with nextDataOut := x } (t.lanes i) :=
    hR.lanes i hi
  obtain ⟨hlanes, hout⟩ := hR.update_lane hi hsame
  rw [Function.update_eq_self] at hlanes hout
  exact ⟨t, ht, { hR with owned := { hR.owned with }, lanes := hlanes, no_lane := hout }⟩

/-- A buffer whose slots are empty has no request that waits for the scheduler. -/
theorem Traced.drained (h : Traced s) {i : ℕ} (hi : i < bufferCount)
    (hnone : ∀ x < bufferSize, (s.outstanding.buffer i).data x = none) :
    (s.outstanding.buffer i).count = 0 ∧
      (s.outstanding.buffer i).nextFreeSlot = (s.outstanding.buffer i).nextDataSlot := by
  obtain ⟨t, -, hR⟩ := h
  have hcarries := hR.lanes i hi
  have hcount := hcarries.count_eq
  rw [hcarries.eq_nil hnone, List.length_nil] at hcount
  refine ⟨hcount, ?_⟩
  rw [hcarries.free_eq, hcount, Nat.add_zero, Nat.mod_eq_of_lt hcarries.next_lt]

variable [DecidableEq τ]

theorem Traced.step {a : Runtime.Action τ ι} (h : Traced s) (hs : Runtime.step s a = .ok s') :
    Traced s' := by
  obtain ⟨t, ht, hR⟩ := h
  have hsome : (Runtime.system τ ι).step s a = some s' := Section.toOption_eq_some.mpr hs
  obtain ⟨bs, t', hrun, hR'⟩ := Runtime.refines.step s a s' t hR hsome
  exact ⟨t', ht.run (fun _ _ _ => trivial) hrun, hR'⟩

theorem background_behind {a : Background} (h : Runtime.step s a.action = .ok s') :
    Behind s s' := by
  cases a with
  | select =>
      obtain ⟨-, -, h⟩ := Section.bind_eq_ok.mp h
      obtain ⟨index, -, h⟩ := Section.bind_eq_ok.mp h
      cases h
      exact ⟨rfl, rfl, fun r hr => hr, fun i => SameSlots.refl _⟩
  | extract =>
      cases hat : s.scheduler with
      | select => simp only [Background.action, Runtime.step, hat, reduceCtorEq] at h
      | submit => simp only [Background.action, Runtime.step, hat, reduceCtorEq] at h
      | extract index =>
          simp only [Background.action, Runtime.step, hat] at h
          exact extractFrom_behind h
  | submitList =>
      obtain ⟨-, -, h⟩ := Section.bind_eq_ok.mp h
      obtain ⟨⟨b, l⟩, -, h⟩ := Section.bind_eq_ok.mp h
      cases h
      exact ⟨rfl, rfl, fun r hr => hr, fun i => SameSlots.refl _⟩
  | read maxRequests =>
      obtain ⟨-, -, h⟩ := Section.bind_eq_ok.mp h
      obtain ⟨⟨l, b⟩, -, h⟩ := Section.bind_eq_ok.mp h
      cases h
      exact ⟨rfl, rfl, fun r hr => hr, fun i => SameSlots.refl _⟩
  | dispatch =>
      obtain ⟨-, -, h⟩ := Section.bind_eq_ok.mp h
      exact dispatchNext_behind h

theorem acquire_ok {t : τ} {bufferId : ℕ} (howned : Owned s.outstanding s.held)
    (h : Runtime.step s (.acquire t bufferId) = .ok s') :
    ∃ id o, o.buffer = s.outstanding.buffer ∧
      s' = { s with outstanding := o, held := (t, id) :: s.held } := by
  obtain ⟨⟨id, o⟩, ho, h⟩ := Section.bind_eq_ok.mp h
  rcases howned.acquire t bufferId with hb | ⟨id', o', ho', hbuf, -⟩
  · rw [hb] at ho
    cases ho
  · rw [ho'] at ho
    cases ho
    exact ⟨id, o, hbuf, (Except.ok.inj h).symm⟩

theorem acquire_run (howned : Owned s.outstanding s.held)
    (hroom : s.outstanding.busyCount < bufferCount) (t : τ) (bufferId : ℕ) :
    ∃ s', Runtime.step s (.acquire t bufferId) = .ok s' := by
  obtain ⟨id, hscan, hlt, -, -⟩ := howned.scan hroom
  obtain ⟨o, ho⟩ : ∃ o, acquireBuffer s.outstanding bufferId = .ok (id, o) :=
    ⟨_, howned.acquire_run hroom hscan hlt bufferId⟩
  refine ⟨{ s with outstanding := o, held := (t, id) :: s.held }, ?_⟩
  rw [Runtime.step, ho]
  rfl

theorem release_ok {t : τ} {bufferId : ℕ} (howned : Owned s.outstanding s.held)
    (h : Runtime.step s (.release t bufferId) = .ok s') :
    ∃ o, o.buffer = s.outstanding.buffer ∧
      s' = { s with outstanding := o, held := s.held.erase (t, bufferId) } := by
  obtain ⟨_, hheld, h⟩ := Section.bind_eq_ok.mp h
  obtain ⟨o, ho, h⟩ := Section.bind_eq_ok.mp h
  obtain ⟨o', ho', hbuf, -⟩ := howned.release (not_not.mp (of_waitWhile_ok hheld))
  rw [ho'] at ho
  cases ho
  exact ⟨o, hbuf, (Except.ok.inj h).symm⟩

theorem release_run {t : τ} {bufferId : ℕ} (howned : Owned s.outstanding s.held)
    (hmem : (t, bufferId) ∈ s.held) :
    ∃ s', Runtime.step s (.release t bufferId) = .ok s' := by
  obtain ⟨o', ho', -⟩ := howned.release hmem
  refine ⟨{ s with outstanding := o', held := s.held.erase (t, bufferId) }, ?_⟩
  rw [Runtime.step, waitWhile_ok (not_not.mpr hmem), Section.bind_ok, ho']
  rfl

theorem submit_ok {t : τ} {bufferId : ℕ} {ref : ι}
    (h : Runtime.step s (.submit t bufferId ref) = .ok s') :
    ⟨some bufferId, ref⟩ ∉ s.submitted ∧
      s' = { s with
        outstanding := { s.outstanding with
          buffer := Function.update s.outstanding.buffer bufferId
            { s.outstanding.buffer bufferId with
              data := Function.update (s.outstanding.buffer bufferId).data
                (s.outstanding.buffer bufferId).nextFreeSlot (some ⟨some bufferId, ref⟩)
              nextFreeSlot := ((s.outstanding.buffer bufferId).nextFreeSlot + 1) % bufferSize
              count := (s.outstanding.buffer bufferId).count + 1 } }
        submitted := s.submitted ++ [⟨some bufferId, ref⟩] } := by
  obtain ⟨_, hwait, h⟩ := Section.bind_eq_ok.mp h
  obtain ⟨b, hb, h⟩ := Section.bind_eq_ok.mp h
  obtain ⟨b', hb', h⟩ := Section.bind_eq_ok.mp h
  cases h
  rw [submitRequest_ok hb', load_eq_ok hb]
  exact ⟨fun hmem => of_waitWhile_ok hwait (Or.inr hmem), rfl⟩

end

/-! ### One buffer -/

/-- How far the release is. -/
def walked {ρ : Type} (walk : Option (Walk ρ)) : ℕ := (walk.map (·.j)).getD 0

/-- The release, on the buffer `b` whose session has made the calls. -/
structure WalkOk (b : RequestBuffer (Request ι)) (calls : List (Option (Request ι)))
    (freed : List (Request ι)) (w : Walk (Request ι)) : Prop where
  planned : w.batchSize = calls.length
  le : w.j ≤ w.batchSize
  place : w.nextDataOut = (b.nextDataOut + w.j) % bufferSize
  task : ∀ r, w.task = some r → b.data w.nextDataOut = some r ∧ w.j < w.batchSize
  freed : w.freed.Sublist freed
  freed_eq : calls.reduceOption.length ≤ bufferSize → w.freed = calls.reduceOption.take w.j

/-- Buffer `i`: its slots hold what the session has queued and the release not yet freed. -/
structure Session (i : ℕ) (b : RequestBuffer (Request ι)) (calls : List (Option (Request ι)))
    (walk : Option (Walk (Request ι))) (submitted freed : List (Request ι)) : Prop where
  filled : Ring.Filled bufferSize b.data b.nextDataOut calls.reduceOption (walked walk)
  free_eq : b.nextFreeSlot = (b.nextDataOut + calls.reduceOption.length) % bufferSize
  submitted : ∀ r ∈ calls.reduceOption, r.via = some i ∧ r ∈ submitted
  unfreed : ∀ x < bufferSize, ∀ r, b.data x = some r → r ∉ freed
  walk : ∀ w, walk = some w → WalkOk b calls freed w

namespace Session

variable {i : ℕ} {b b' : RequestBuffer (Request ι)} {calls : List (Option (Request ι))}
  {walk : Option (Walk (Request ι))} {submitted submitted' freed freed' : List (Request ι)}
  {w : Walk (Request ι)} {r : Request ι}

/-- A buffer whose slots are empty and whose indices agree is ready for a session. -/
theorem clean (hlt : b.nextDataOut < bufferSize) (hfree : b.nextFreeSlot = b.nextDataOut)
    (hnone : ∀ x < bufferSize, b.data x = none) : Session i b [] none submitted freed where
  filled := Ring.Filled.empty hlt hnone
  free_eq := by
    rw [hfree]
    exact (Nat.mod_eq_of_lt hlt).symm
  submitted r hr := by cases hr
  unfreed x hx r hr := by
    rw [hnone x hx] at hr
    cases hr
  walk w hw := by cases hw

/-- What happens elsewhere. -/
theorem frame (h : Session i b calls walk submitted freed) (hb : SameSlots b b')
    (hsub : ∀ r ∈ submitted, r ∈ submitted') (hmono : freed.Sublist freed')
    (hfreed : ∀ r, r.via = some i → r ∈ freed' → r ∈ freed) :
    Session i b' calls walk submitted' freed' where
  filled := by
    rw [hb.data_eq, hb.out_eq]
    exact h.filled
  free_eq := by rw [hb.free_eq, hb.out_eq, h.free_eq]
  submitted r hr := ⟨(h.submitted r hr).1, hsub r (h.submitted r hr).2⟩
  unfreed x hx r hr hmem := by
    rw [hb.data_eq] at hr
    have hvia := (h.submitted r (h.filled.mem x hx r hr)).1
    exact h.unfreed x hx r hr (hfreed r hvia hmem)
  walk w hw := by
    have hok := h.walk w hw
    refine { hok with place := ?_, task := ?_, freed := hok.freed.trans hmono }
    · rw [hb.out_eq]
      exact hok.place
    · rw [hb.data_eq]
      exact hok.task

/-- A call that queues its request. -/
theorem queue (h : Session i b calls none submitted freed) (hvia : r.via = some i)
    (hnew : r ∉ submitted) (hfreed : r ∉ freed) (count : ℕ) :
    Session i { b with
        data := Function.update b.data b.nextFreeSlot (some r)
        nextFreeSlot := (b.nextFreeSlot + 1) % bufferSize
        count := count } (calls ++ [some r]) none (submitted ++ [r]) freed where
  filled := by
    rw [List.reduceOption_append, List.reduceOption_singleton, h.free_eq]
    exact h.filled.push fun hmem => hnew (h.submitted r hmem).2
  free_eq := by
    rw [List.reduceOption_append, List.length_append, List.reduceOption_singleton, h.free_eq]
    show ((b.nextDataOut + calls.reduceOption.length) % bufferSize + 1) % bufferSize
      = (b.nextDataOut + (calls.reduceOption.length + 1)) % bufferSize
    rw [Nat.mod_add_mod, Nat.add_assoc]
  submitted q hq := by
    rw [List.reduceOption_append, List.reduceOption_singleton] at hq
    rcases List.mem_append.mp hq with hq | hq
    · exact ⟨(h.submitted q hq).1, List.mem_append_left [r] (h.submitted q hq).2⟩
    · rw [List.mem_singleton.mp hq]
      exact ⟨hvia, List.mem_append_right _ (List.mem_singleton_self r)⟩
  unfreed x hx q hq := by
    rcases Ring.of_update_some hq with ⟨-, rfl⟩ | ⟨-, hold⟩
    · exact hfreed
    · exact h.unfreed x hx q hold
  walk w hw := by cases hw

/-- A call that fails. -/
theorem fail (h : Session i b calls none submitted freed) :
    Session i b (calls ++ [none]) none submitted freed := by
  have hsame : (calls ++ [none]).reduceOption = calls.reduceOption := by
    rw [List.reduceOption_append, List.reduceOption_cons_of_none, List.reduceOption_nil,
      List.append_nil]
  exact {
    filled := hsame ▸ h.filled
    free_eq := hsame ▸ h.free_eq
    submitted := hsame ▸ h.submitted
    unfreed := h.unfreed
    walk := fun w hw => by cases hw }

/-- The release begins. -/
theorem enter (h : Session i b calls none submitted freed) :
    Session i b calls (some {
      batchSize := calls.length
      nextDataOut := b.nextDataOut
      j := 0
      task := none
      freed := [] }) submitted freed where
  filled := h.filled
  free_eq := h.free_eq
  submitted := h.submitted
  unfreed := h.unfreed
  walk w hw := by
    cases hw
    exact {
      planned := rfl
      le := Nat.zero_le _
      place := (Nat.mod_eq_of_lt h.filled.start_lt).symm
      task := fun r hr => by cases hr
      freed := List.nil_sublist freed
      freed_eq := fun _ => rfl }

/-- It reads the slot it is at. -/
theorem look (h : Session i b calls (some w) submitted freed) (hj : w.j < w.batchSize) :
    Session i b calls (some { w with task := b.data w.nextDataOut }) submitted freed where
  filled := h.filled
  free_eq := h.free_eq
  submitted := h.submitted
  unfreed := h.unfreed
  walk w' hw' := by
    cases hw'
    exact { h.walk w rfl with task := fun r hr => ⟨hr, hj⟩ }

/-- It is done with one request. -/
theorem finish (h : Session i b calls (some w) submitted freed) (hr : w.task = some r) :
    Session i { b with data := Function.update b.data w.nextDataOut none } calls
      (some { w with
        nextDataOut := (w.nextDataOut + 1) % bufferSize
        j := w.j + 1
        task := none
        freed := w.freed ++ [r] }) submitted (freed ++ [r]) := by
  have hok := h.walk w rfl
  obtain ⟨hslot, hj⟩ := hok.task r hr
  have hplace := hok.place
  have hat : b.data ((b.nextDataOut + w.j) % bufferSize) = some r := hplace ▸ hslot
  have hlt := h.filled.lt_size hat
  exact {
    filled := by
      rw [hplace]
      exact h.filled.take hat
    free_eq := h.free_eq
    submitted := h.submitted
    unfreed := by
      intro x hx q hq hmem
      obtain ⟨hne, hold⟩ := Ring.of_update_none hq
      rcases List.mem_append.mp hmem with hmem | hmem
      · exact h.unfreed x hx q hold hmem
      · -- the request just freed was in no other slot
        rw [List.mem_singleton.mp hmem] at hold
        refine hne (h.filled.inj x hx _ ?_ r hold hslot)
        rw [hplace]
        exact h.filled.slot_lt _
    walk := by
      intro w' hw'
      cases hw'
      exact {
        planned := hok.planned
        le := hj
        place := by
          show (w.nextDataOut + 1) % bufferSize = (b.nextDataOut + (w.j + 1)) % bufferSize
          rw [hplace, Nat.mod_add_mod, Nat.add_assoc]
        task := fun q hq => by cases hq
        freed := hok.freed.append (List.Sublist.refl [r])
        freed_eq := by
          intro hlen
          have hnext := h.filled.rest hlen w.j hlt le_rfl
          rw [hat] at hnext
          obtain ⟨hmem, hget⟩ := List.getElem?_eq_some_iff.mp hnext.symm
          show w.freed ++ [r] = calls.reduceOption.take (w.j + 1)
          rw [hok.freed_eq hlen, ← hget, List.take_append_getElem] } }

/-- A release that is through has found a request for each call, and every slot is empty. -/
theorem through (h : Session i b calls (some w) submitted freed) (hj : w.batchSize ≤ w.j) :
    calls.reduceOption.length = calls.length ∧ calls.length ≤ bufferSize ∧
      w.j = calls.length ∧ ∀ x < bufferSize, b.data x = none := by
  have hok := h.walk w rfl
  have hall : w.j = calls.length := hok.planned ▸ le_antisymm hok.le hj
  have hqueued := List.reduceOption_length_le calls
  have hsize : w.j ≤ bufferSize := h.filled.le_size
  have hlen : calls.reduceOption.length ≤ bufferSize := by omega
  have hle : w.j ≤ calls.reduceOption.length := h.filled.le_length hlen
  have heq : w.j = calls.reduceOption.length := by omega
  have hfilled : Ring.Filled bufferSize b.data b.nextDataOut calls.reduceOption
      calls.reduceOption.length := by
    have hf := h.filled
    rw [show walked (some w) = w.j from rfl, heq] at hf
    exact hf
  exact ⟨by omega, by omega, hall, fun x hx => hfilled.all_none hlen hx⟩

/-- The buffer is given back, ready for the next session. -/
theorem giveBack (h : Session i b calls (some w) submitted freed) (hj : w.batchSize ≤ w.j) :
    Session i { b with nextDataOut := w.nextDataOut } [] none submitted freed := by
  obtain ⟨hqueued, -, hall, hnone⟩ := h.through hj
  have hplace := (h.walk w rfl).place
  refine clean ?_ ?_ hnone
  · show w.nextDataOut < bufferSize
    rw [hplace]
    exact h.filled.slot_lt _
  · show b.nextFreeSlot = w.nextDataOut
    rw [h.free_eq, hplace, hqueued, hall]

end Session

/-! ### The requests -/

theorem of_require {α : Type} {c : Bool} {status : Status} {f : Unit → Except Status α} {x : α}
    (h : require c status >>= f = .ok x) : f () = .ok x := by
  cases c with
  | false => cases h
  | true => exact h

/-- A request as a call packs it waits for its answer. -/
theorem packRequest_ok {a : Resources} {request : TaskRequest} (h : packRequest a = .ok request) :
    request.callbackFunc = .bnModExp ∧ ¬ request.WaitOver := by
  rw [packRequest] at h
  -- the arguments, then the memory
  have hargs := of_require (of_require (of_require (of_require h)))
  have hmem := of_require (of_require (of_require (of_require hargs)))
  cases hop : a.opData with
  | none =>
      rw [hop] at hmem
      cases hmem
  | some opData =>
      rw [hop] at hmem
      cases of_require hmem
      exact ⟨rfl, by simp [TaskRequest.WaitOver, TaskRequest.packed]⟩

/-- The callback of a request stores the result, and then the request is ready. -/
theorem answered_success {request : TaskRequest} (h : request.callbackFunc = .bnModExp)
    (out : List ℕ) (bin2bn : Option (List ℕ)) :
    request.answered ⟨.success, request.opData, out, bin2bn⟩
      = { request with opResult := out, opStatus := .success, requestStatus := .ready,
                       opOutput := out } := by
  simp [TaskRequest.answered, bnModExpCallback, h]

/-- What is known of a request, from its submission to the end. -/
structure Memory (s : State τ ι) : Prop where
  allocated : ∀ r, (s.task r).isSome ↔ r ∈ s.runtime.submitted ∧ r ∉ s.freed
  packed : ∀ r request, s.task r = some request →
    request.callbackFunc = .bnModExp ∧ (request.WaitOver ↔ (s.answer r).isSome)
  output_eq : s.output = s.answer
  answered : ∀ r, (s.answer r).isSome → r ∈ s.runtime.dispatched
  freed : ∀ r ∈ s.freed, (s.answer r).isSome
  nodup : s.freed.Nodup

theorem Memory.frame {s : State τ ι} {runtime : Runtime.State τ ι} (h : Memory s)
    (hsub : runtime.submitted = s.runtime.submitted)
    (hdisp : ∀ r ∈ s.runtime.dispatched, r ∈ runtime.dispatched) :
    Memory { s with runtime := runtime } where
  allocated r := by
    rw [hsub]
    exact h.allocated r
  packed := h.packed
  output_eq := h.output_eq
  answered r hr := hdisp r (h.answered r hr)
  freed := h.freed
  nodup := h.nodup

/-! ### The sections of a session -/

section
variable {s s' : State τ ι} {bufferId : ℕ} {w : Walk (Request ι)}

/-- After a call that has failed. -/
def failed (s : State τ ι) (bufferId : ℕ) : State τ ι :=
  { s with calls := Function.update s.calls bufferId (s.calls bufferId ++ [none]) }

variable [DecidableEq ι]

/-- After the submission of a request, which led the runtime to `runtime`. -/
def submitted (s : State τ ι) (runtime : Runtime.State τ ι) (bufferId : ℕ) (ref : ι)
    (request : TaskRequest) : State τ ι :=
  { s with
    runtime := runtime
    task := Function.update s.task ⟨some bufferId, ref⟩ (some request)
    calls := Function.update s.calls bufferId
      (s.calls bufferId ++ [some ⟨some bufferId, ref⟩]) }

/-- After the callback of the request `r`. -/
def answered (s : State τ ι) (r : Request ι) (request : TaskRequest) (out : List ℕ) :
    State τ ι :=
  let request := request.answered ⟨.success, request.opData, out, none⟩
  { s with
    task := Function.update s.task r (some request)
    output := Function.update s.output r (some request.opOutput)
    answer := Function.update s.answer r (some out) }

/-- After the first lines of a release. -/
def entered (s : State τ ι) (bufferId batchSize : ℕ) : State τ ι :=
  { s with walk := Function.update s.walk bufferId (some {
      batchSize := batchSize
      nextDataOut := (s.runtime.outstanding.buffer bufferId).nextDataOut
      j := 0
      task := none
      freed := [] }) }

/-- After the release has read the slot it is at. -/
def looked (s : State τ ι) (bufferId : ℕ) (w : Walk (Request ι)) : State τ ι :=
  { s with walk := Function.update s.walk bufferId (some { w with
      task := (s.runtime.outstanding.buffer bufferId).data w.nextDataOut }) }

/-- After the round of a release on the request `r`. -/
def finished (s : State τ ι) (bufferId : ℕ) (w : Walk (Request ι)) (r : Request ι) : State τ ι :=
  { s.withBuffer bufferId { s.runtime.outstanding.buffer bufferId with
      data := Function.update (s.runtime.outstanding.buffer bufferId).data w.nextDataOut none } with
    task := Function.update s.task r none
    freed := s.freed ++ [r]
    walk := Function.update s.walk bufferId (some { w with
      nextDataOut := (w.nextDataOut + 1) % bufferSize
      j := w.j + 1
      task := none
      freed := w.freed ++ [r] }) }

/-- After the end of a release, which led the runtime to `runtime`. -/
def handed (s : State τ ι) (runtime : Runtime.State τ ι) (bufferId : ℕ) : State τ ι :=
  { s with
    runtime := runtime
    calls := Function.update s.calls bufferId []
    walk := Function.update s.walk bufferId none }

variable [DecidableEq τ]

omit [DecidableEq ι] in
/-- The guard of what a thread does outside of a release. -/
theorem outside_release {t : τ} {u : Unit}
    (hwait : waitWhile ((t, bufferId) ∉ s.runtime.held ∨ (s.walk bufferId).isSome) = .ok u) :
    (t, bufferId) ∈ s.runtime.held ∧ s.walk bufferId = none := by
  simpa using of_waitWhile_ok hwait

theorem call_ok {t : τ} {ref : ι} {a : Resources}
    (hs : step s (.call t bufferId ref a) = .ok s') :
    (t, bufferId) ∈ s.runtime.held ∧ s.walk bufferId = none ∧
      ((packRequest a).isOk = false ∧ s' = failed s bufferId ∨
        ∃ request runtime, packRequest a = .ok request ∧
          Runtime.step s.runtime (.submit t bufferId ref) = .ok runtime ∧
          s' = submitted s runtime bufferId ref request) := by
  obtain ⟨_, hwait, hs⟩ := Section.bind_eq_ok.mp hs
  obtain ⟨hmem, hwalk⟩ := outside_release hwait
  refine ⟨hmem, hwalk, ?_⟩
  cases hp : packRequest a with
  | error status =>
      rw [hp] at hs
      exact Or.inl ⟨rfl, (Except.ok.inj hs).symm⟩
  | ok request =>
      rw [hp] at hs
      obtain ⟨runtime, hr, hs⟩ := Section.bind_eq_ok.mp hs
      exact Or.inr ⟨request, runtime, rfl, hr, (Except.ok.inj hs).symm⟩

theorem callback_ok {r : Request ι} {out : List ℕ}
    (hs : step s (.callback r out : Action τ ι) = .ok s') :
    r ∈ s.runtime.dispatched ∧ s.answer r = none ∧
      ∃ request, s.task r = some request ∧ s' = answered s r request out := by
  obtain ⟨_, hwait, hs⟩ := Section.bind_eq_ok.mp hs
  have hguard := of_waitWhile_ok hwait
  rw [not_or, not_not, Option.not_isSome_iff_eq_none] at hguard
  refine ⟨hguard.1, hguard.2, ?_⟩
  cases hr : s.task r with
  | none => simp only [callback, hr, reduceCtorEq] at hs
  | some request =>
      simp only [callback, hr] at hs
      exact ⟨request, rfl, (Except.ok.inj hs).symm⟩

theorem enter_ok {t : τ} {batchSize : ℕ}
    (hs : step s (.release t bufferId batchSize) = .ok s') :
    (t, bufferId) ∈ s.runtime.held ∧ s.walk bufferId = none ∧
      s' = entered s bufferId batchSize := by
  obtain ⟨_, hwait, hs⟩ := Section.bind_eq_ok.mp hs
  obtain ⟨hmem, hwalk⟩ := outside_release hwait
  obtain ⟨b, hb, hs⟩ := Section.bind_eq_ok.mp hs
  refine ⟨hmem, hwalk, ?_⟩
  rw [entered, ← load_eq_ok hb]
  exact (Except.ok.inj hs).symm

omit [DecidableEq ι] in
/-- A step of a release is taken by the thread that holds the buffer. -/
theorem releasing_ok {t : τ} {f : Walk (Request ι) → Section (State τ ι)}
    (hs : releasing s t bufferId f = .ok s') :
    (t, bufferId) ∈ s.runtime.held ∧ ∃ w, s.walk bufferId = some w ∧ f w = .ok s' := by
  obtain ⟨_, hwait, hs⟩ := Section.bind_eq_ok.mp hs
  refine ⟨not_not.mp (of_waitWhile_ok hwait), ?_⟩
  cases hw : s.walk bufferId with
  | none =>
      rw [hw] at hs
      cases hs
  | some w =>
      rw [hw] at hs
      exact ⟨w, rfl, hs⟩

omit [DecidableEq ι] in
theorem releasing_run {t : τ} (hmem : (t, bufferId) ∈ s.runtime.held)
    (hw : s.walk bufferId = some w) (f : Walk (Request ι) → Section (State τ ι)) :
    releasing s t bufferId f = f w := by
  rw [releasing, waitWhile_ok (not_not.mpr hmem), Section.bind_ok, hw]

theorem look_ok {t : τ} (hs : step s (.look t bufferId) = .ok s') :
    (t, bufferId) ∈ s.runtime.held ∧ ∃ w, s.walk bufferId = some w ∧ w.task = none ∧
      w.j < w.batchSize ∧ s' = looked s bufferId w := by
  obtain ⟨hmem, w, hw, hs⟩ := releasing_ok hs
  obtain ⟨_, hwait, hs⟩ := Section.bind_eq_ok.mp hs
  obtain ⟨b, hb, hs⟩ := Section.bind_eq_ok.mp hs
  obtain ⟨task, htask, hs⟩ := Section.bind_eq_ok.mp hs
  have hguard := of_waitWhile_ok hwait
  rw [not_or, Option.not_isSome_iff_eq_none, Nat.not_le] at hguard
  refine ⟨hmem, w, hw, hguard.1, hguard.2, ?_⟩
  rw [looked, ← load_eq_ok hb, ← load_eq_ok htask]
  exact (Except.ok.inj hs).symm

theorem giveBack_ok {t : τ} (hs : step s (.giveBack t bufferId) = .ok s') :
    (t, bufferId) ∈ s.runtime.held ∧ ∃ w, s.walk bufferId = some w ∧ w.batchSize ≤ w.j ∧
      ∃ runtime, Runtime.step (s.withBuffer bufferId
          { s.runtime.outstanding.buffer bufferId with nextDataOut := w.nextDataOut }).runtime
          (.release t bufferId) = .ok runtime ∧ s' = handed s runtime bufferId := by
  obtain ⟨hmem, w, hw, hs⟩ := releasing_ok hs
  obtain ⟨_, hwait, hs⟩ := Section.bind_eq_ok.mp hs
  obtain ⟨b, hb, hs⟩ := Section.bind_eq_ok.mp hs
  obtain ⟨runtime, hr, hs⟩ := Section.bind_eq_ok.mp hs
  rw [load_eq_ok hb] at hr
  exact ⟨hmem, w, hw, Nat.le_of_not_lt (of_waitWhile_ok hwait), runtime, hr,
    (Except.ok.inj hs).symm⟩

end

/-! ### What becomes of a request -/

section

variable [DecidableEq ι] {s : State τ ι}

/-- It is submitted. -/
theorem Memory.allocate (h : Memory s) {runtime : Runtime.State τ ι} {r : Request ι}
    {request : TaskRequest} (hsub : runtime.submitted = s.runtime.submitted ++ [r])
    (hdisp : runtime.dispatched = s.runtime.dispatched) (hanswer : s.answer r = none)
    (hfreed : r ∉ s.freed) (hpacked : request.callbackFunc = .bnModExp ∧ ¬ request.WaitOver) :
    Memory { s with runtime := runtime, task := Function.update s.task r (some request) } where
  allocated := by
    intro q
    show (Function.update s.task r (some request) q).isSome ↔ q ∈ runtime.submitted ∧ q ∉ s.freed
    rw [hsub]
    by_cases hq : q = r
    · subst hq
      rw [Function.update_self]
      simp [hfreed]
    · rw [Function.update_of_ne hq, h.allocated q]
      simp [hq]
  packed := by
    intro q request' hq
    rcases Ring.of_update_some hq with ⟨rfl, rfl⟩ | ⟨-, hold⟩
    · refine ⟨hpacked.1, ?_⟩
      show request'.WaitOver ↔ (s.answer q).isSome
      rw [hanswer]
      simpa using hpacked.2
    · exact h.packed q request' hold
  output_eq := h.output_eq
  answered q hq := by
    show q ∈ runtime.dispatched
    rw [hdisp]
    exact h.answered q hq
  freed := h.freed
  nodup := h.nodup

/-- It is submitted to a buffer. -/
theorem Memory.submit (h : Memory s) {runtime : Runtime.State τ ι} {bufferId : ℕ} {ref : ι}
    {request : TaskRequest}
    (hsub : runtime.submitted = s.runtime.submitted ++ [⟨some bufferId, ref⟩])
    (hdisp : runtime.dispatched = s.runtime.dispatched)
    (hanswer : s.answer ⟨some bufferId, ref⟩ = none) (hfreed : ⟨some bufferId, ref⟩ ∉ s.freed)
    (hpacked : request.callbackFunc = .bnModExp ∧ ¬ request.WaitOver) :
    Memory (submitted s runtime bufferId ref request) :=
  { h.allocate hsub hdisp hanswer hfreed hpacked with }

/-- It is answered. -/
theorem Memory.answer (h : Memory s) {r : Request ι} (hdisp : r ∈ s.runtime.dispatched)
    (hanswer : s.answer r = none) {request : TaskRequest} (hr : s.task r = some request)
    (out : List ℕ) : Memory (Sessions.answered s r request out) where
  allocated := by
    intro q
    show (Function.update s.task r _ q).isSome ↔ q ∈ s.runtime.submitted ∧ q ∉ s.freed
    by_cases hq : q = r
    · subst hq
      rw [Function.update_self, ← h.allocated q, hr]
      rfl
    · rw [Function.update_of_ne hq]
      exact h.allocated q
  packed := by
    intro q request' hq
    show _ ∧ (_ ↔ (Function.update s.answer r (some out) q).isSome)
    have hpacked := (h.packed r request hr).1
    rcases Ring.of_update_some hq with ⟨rfl, rfl⟩ | ⟨hne, hold⟩
    · rw [Function.update_self, answered_success hpacked out none]
      exact ⟨hpacked, by simp [TaskRequest.WaitOver]⟩
    · rw [Function.update_of_ne hne]
      exact h.packed q request' hold
  output_eq := by
    show Function.update s.output r _ = Function.update s.answer r _
    rw [h.output_eq, answered_success (h.packed r request hr).1 out none]
  answered := by
    intro q hq
    by_cases hqr : q = r
    · rw [hqr]
      exact hdisp
    · refine h.answered q ?_
      have hsome : (Function.update s.answer r (some out) q).isSome := hq
      rwa [Function.update_of_ne hqr] at hsome
  freed := by
    intro q hq
    have hne : q ≠ r := by
      rintro rfl
      have hsome := h.freed q hq
      rw [hanswer] at hsome
      cases hsome
    show (Function.update s.answer r (some out) q).isSome
    rw [Function.update_of_ne hne]
    exact h.freed q hq
  nodup := h.nodup

/-- It is freed. -/
theorem Memory.dispose (h : Memory s) {r : Request ι} (hanswer : (s.answer r).isSome)
    (hunfreed : r ∉ s.freed) :
    Memory { s with task := Function.update s.task r none, freed := s.freed ++ [r] } := { h with
  allocated := by
    intro q
    show (Function.update s.task r none q).isSome ↔ q ∈ s.runtime.submitted ∧ q ∉ s.freed ++ [r]
    by_cases hq : q = r
    · rw [hq, Function.update_self]
      simp
    · rw [Function.update_of_ne hq, h.allocated q]
      simp [hq]
  packed := fun q request hq => h.packed q request (Ring.of_update_none hq).2
  freed := by
    intro q hq
    rcases List.mem_append.mp hq with hq | hq
    · exact h.freed q hq
    · rw [List.mem_singleton.mp hq]
      exact hanswer
  nodup := by
    show (s.freed ++ [r]).Nodup
    exact List.nodup_append.mpr ⟨h.nodup, List.nodup_singleton r,
      fun a ha b hb hab => hunfreed (List.mem_singleton.mp hb ▸ hab ▸ ha)⟩ }

/-- A release frees it. -/
theorem Memory.free (h : Memory s) {r : Request ι} (hanswer : (s.answer r).isSome)
    (hunfreed : r ∉ s.freed) {bufferId : ℕ} {w : Walk (Request ι)} :
    Memory (finished s bufferId w r) := { h.dispose hanswer hunfreed with }

end

/-! ### All of it -/

variable [DecidableEq ι]

/-- The runtime, every buffer and the requests are as described. -/
structure Sound (s : State τ ι) : Prop where
  traced : Traced s.runtime
  session : ∀ i < bufferCount, Session i (s.runtime.outstanding.buffer i) (s.calls i) (s.walk i)
    s.runtime.submitted s.freed
  idle : ∀ i, i ∉ s.runtime.held.map (·.2) → s.calls i = [] ∧ s.walk i = none
  memory : Memory s

namespace Sound

theorem initial : Sound (State.initial : State τ ι) where
  traced := ⟨_, .init rfl, Related.initial⟩
  session i _ := Session.clean (Nat.zero_lt_succ 1023) rfl fun _ _ => rfl
  idle i _ := ⟨rfl, rfl⟩
  memory := {
    allocated := fun r => by simp [State.initial, Runtime.State.initial]
    packed := fun r request hr => by cases hr
    output_eq := rfl
    answered := fun r hr => by cases hr
    freed := fun r hr => by cases hr
    nodup := List.nodup_nil }

variable {s s' : State τ ι} (h : Sound s)
include h

/-- A request not yet submitted has left no trace. -/
theorem fresh {r : Request ι} (hr : r ∉ s.runtime.submitted) :
    s.answer r = none ∧ r ∉ s.freed := by
  have hanswer : ¬ (s.answer r).isSome := fun hc =>
    hr (h.traced.mem_submitted (h.memory.answered r hc))
  exact ⟨Option.not_isSome_iff_eq_none.mp hanswer, fun hc => hanswer (h.memory.freed r hc)⟩

theorem lt_of_held {t : τ} {i : ℕ} (hmem : (t, i) ∈ s.runtime.held) : i < bufferCount :=
  h.traced.owned.lt _ hmem

/-- Buffers that no thread holds are not concerned by what one does to a buffer it holds. -/
theorem idle_update {t : τ} {i : ℕ} (hmem : (t, i) ∈ s.runtime.held)
    (calls : List (Option (Request ι))) (walk : Option (Walk (Request ι))) (j : ℕ)
    (hj : j ∉ s.runtime.held.map (·.2)) :
    Function.update s.calls i calls j = [] ∧ Function.update s.walk i walk j = none := by
  have hne : j ≠ i := by
    rintro rfl
    exact hj (List.mem_map_of_mem hmem)
  rw [Function.update_of_ne hne, Function.update_of_ne hne]
  exact h.idle j hj

/-- A step of the thread that holds the buffer which is only about the session on it. -/
theorem update_session {t : τ} {bufferId : ℕ} (hmem : (t, bufferId) ∈ s.runtime.held)
    {calls : List (Option (Request ι))} {walk : Option (Walk (Request ι))}
    (hsession : Session bufferId (s.runtime.outstanding.buffer bufferId) calls walk
      s.runtime.submitted s.freed) :
    Sound { s with
      calls := Function.update s.calls bufferId calls
      walk := Function.update s.walk bufferId walk } where
  traced := h.traced
  session i hi := by
    show Session i _ (Function.update s.calls bufferId calls i)
      (Function.update s.walk bufferId walk i) _ _
    by_cases hid : i = bufferId
    · subst hid
      rwa [Function.update_self, Function.update_self]
    · rw [Function.update_of_ne hid, Function.update_of_ne hid]
      exact h.session i hi
  idle i hi := h.idle_update hmem calls walk i hi
  memory := { h.memory with }

theorem failed {t : τ} {bufferId : ℕ} (hmem : (t, bufferId) ∈ s.runtime.held)
    (hwalk : s.walk bufferId = none) : Sound (failed s bufferId) := by
  have hsession := h.session bufferId (h.lt_of_held hmem)
  rw [hwalk] at hsession
  have hsound := h.update_session hmem hsession.fail
  rwa [← hwalk, Function.update_eq_self] at hsound

theorem entered {t : τ} {bufferId : ℕ} (hmem : (t, bufferId) ∈ s.runtime.held)
    (hwalk : s.walk bufferId = none) :
    Sound (entered s bufferId (s.calls bufferId).length) := by
  have hsession := h.session bufferId (h.lt_of_held hmem)
  rw [hwalk] at hsession
  have hsound := h.update_session hmem hsession.enter
  rwa [Function.update_eq_self] at hsound

theorem looked {t : τ} {bufferId : ℕ} (hmem : (t, bufferId) ∈ s.runtime.held)
    {w : Walk (Request ι)} (hw : s.walk bufferId = some w) (hj : w.j < w.batchSize) :
    Sound (looked s bufferId w) := by
  have hsession := h.session bufferId (h.lt_of_held hmem)
  rw [hw] at hsession
  have hsound := h.update_session hmem (hsession.look hj)
  rwa [Function.update_eq_self] at hsound

/-- The request in the slot of a release is in memory, and is ready once it is answered. -/
theorem at_slot {bufferId : ℕ} (hid : bufferId < bufferCount) {w : Walk (Request ι)}
    (hw : s.walk bufferId = some w) {r : Request ι} (hr : w.task = some r) :
    (s.runtime.outstanding.buffer bufferId).data w.nextDataOut = some r ∧
      w.nextDataOut < bufferSize ∧ r ∈ s.queued bufferId ∧
      ∃ request, s.task r = some request ∧ (request.WaitOver ↔ (s.answer r).isSome) := by
  have hsession := h.session bufferId hid
  rw [hw] at hsession
  have hok := hsession.walk w rfl
  obtain ⟨hslot, -⟩ := hok.task r hr
  have hlt : w.nextDataOut < bufferSize := by
    rw [hok.place]
    exact hsession.filled.slot_lt _
  have hmem := hsession.filled.mem _ hlt r hslot
  have halloc := (h.memory.allocated r).mpr
    ⟨(hsession.submitted r hmem).2, hsession.unfreed _ hlt r hslot⟩
  obtain ⟨request, hrequest⟩ := Option.isSome_iff_exists.mp halloc
  exact ⟨hslot, hlt, hmem, request, hrequest, (h.memory.packed r request hrequest).2⟩

/-- A round ends exactly when its request has been answered, and frees that request. -/
theorem finish_iff {bufferId : ℕ} (hid : bufferId < bufferCount) {w : Walk (Request ι)}
    (hw : s.walk bufferId = some w) :
    finish s bufferId w = .ok s' ↔
      ∃ r, w.task = some r ∧ (s.answer r).isSome ∧ s' = Sessions.finished s bufferId w r := by
  cases hr : w.task with
  | none => simp [finish, hr]
  | some r =>
      obtain ⟨hslot, hlt, -, request, hrequest, hready⟩ := h.at_slot hid hw hr
      by_cases hanswer : (s.answer r).isSome
      · have hrun : finish s bufferId w = .ok (Sessions.finished s bufferId w r) := by
          simp only [finish, hr, hrequest]
          rw [waitWhile_ok (not_not.mpr (hready.mpr hanswer)), Section.bind_ok, load_ok hid,
            Section.bind_ok, load_ok hlt, Section.bind_ok, hslot, free,
            if_pos (by rw [hrequest]; rfl), Section.bind_ok, store_ok hlt]
          rfl
        rw [hrun]
        constructor
        · intro hs
          exact ⟨r, rfl, hanswer, (Except.ok.inj hs).symm⟩
        · rintro ⟨q, hq, -, rfl⟩
          cases hq
          rfl
      · have hrun : finish s bufferId w = .error .blocked := by
          simp only [finish, hr, hrequest]
          rw [waitWhile_blocked (mt hready.mp hanswer), Section.bind_error]
        rw [hrun]
        simp [hanswer]

theorem finished {t : τ} {bufferId : ℕ} (hmem : (t, bufferId) ∈ s.runtime.held)
    {w : Walk (Request ι)} (hw : s.walk bufferId = some w) {r : Request ι}
    (hr : w.task = some r) (hanswer : (s.answer r).isSome) :
    Sound (finished s bufferId w r) := by
  have hlt := h.lt_of_held hmem
  obtain ⟨hslot, -, hqueued, request, hrequest, -⟩ := h.at_slot hlt hw hr
  have halloc := (h.memory.allocated r).mp (by rw [hrequest]; rfl)
  have hvia := ((h.session bufferId hlt).submitted r hqueued).1
  exact {
    traced := h.traced.empty_slot hlt hslot (h.memory.answered r hanswer)
    session := by
      intro i hi
      show Session i (Function.update s.runtime.outstanding.buffer bufferId _ i) _
        (Function.update s.walk bufferId _ i) _ _
      by_cases hid : i = bufferId
      · subst hid
        have hsession := h.session i hi
        rw [hw] at hsession
        rw [Function.update_self, Function.update_self]
        exact hsession.finish hr
      · rw [Function.update_of_ne hid, Function.update_of_ne hid]
        refine (h.session i hi).frame (SameSlots.refl _) (fun q hq => hq)
          (List.sublist_append_left _ _) fun q hq hfreed => ?_
        -- the request freed is one of the other buffer
        refine (List.mem_append.mp hfreed).resolve_right fun hc => hid ?_
        rw [List.mem_singleton.mp hc, hvia] at hq
        exact (Option.some.inj hq).symm
    idle := fun i hi => ⟨(h.idle i hi).1, (h.idle_update hmem (s.calls bufferId) _ i hi).2⟩
    memory := h.memory.free hanswer halloc.2 }

theorem answered {r : Request ι} (hdisp : r ∈ s.runtime.dispatched) (hanswer : s.answer r = none)
    {request : TaskRequest} (hr : s.task r = some request) (out : List ℕ) :
    Sound (answered s r request out) := by
  exact { h with
    session := h.session
    memory := h.memory.answer hdisp hanswer hr out }

variable [DecidableEq τ]

/-- What a round can do. -/
theorem finish_ok {t : τ} {bufferId : ℕ} (hs : Sessions.step s (.finish t bufferId) = .ok s') :
    (t, bufferId) ∈ s.runtime.held ∧ ∃ w r, s.walk bufferId = some w ∧ w.task = some r ∧
      (s.answer r).isSome ∧ s' = Sessions.finished s bufferId w r := by
  obtain ⟨hmem, w, hw, hs⟩ := releasing_ok hs
  obtain ⟨r, hr, hanswer, hs⟩ := (h.finish_iff (h.lt_of_held hmem) hw).mp hs
  exact ⟨hmem, w, r, hw, hr, hanswer, hs⟩

/-- What the end of a release can do. -/
theorem giveBack_effect {t : τ} {bufferId : ℕ}
    (hs : Sessions.step s (.giveBack t bufferId) = .ok s') :
    (t, bufferId) ∈ s.runtime.held ∧ ∃ w o, s.walk bufferId = some w ∧ w.batchSize ≤ w.j ∧
      o.buffer = Function.update s.runtime.outstanding.buffer bufferId
        { s.runtime.outstanding.buffer bufferId with nextDataOut := w.nextDataOut } ∧
      s' = Sessions.handed s { s.runtime with
        outstanding := o, held := s.runtime.held.erase (t, bufferId) } bufferId := by
  obtain ⟨hmem, w, hw, hj, runtime, hr, rfl⟩ := giveBack_ok hs
  obtain ⟨o, hbuf, rfl⟩ := release_ok (h.traced.set_out (h.lt_of_held hmem) w.nextDataOut).owned hr
  exact ⟨hmem, w, o, hw, hj, hbuf, rfl⟩

theorem acquire {t : τ} {bufferId : ℕ} {runtime : Runtime.State τ ι}
    (hr : Runtime.step s.runtime (.acquire t bufferId) = .ok runtime) :
    Sound { s with runtime := runtime } := by
  have htraced := h.traced.step hr
  obtain ⟨id, o, hbuf, rfl⟩ := acquire_ok h.traced.owned hr
  exact {
    traced := htraced
    session := by
      intro i hi
      show Session i (o.buffer i) _ _ _ _
      rw [hbuf]
      exact h.session i hi
    idle := by
      intro i hi
      rw [List.map_cons, List.mem_cons, not_or] at hi
      exact h.idle i hi.2
    memory := h.memory.frame rfl fun r hr => hr }

theorem background {a : Background} {runtime : Runtime.State τ ι}
    (hr : Runtime.step s.runtime a.action = .ok runtime) :
    Sound { s with runtime := runtime } := by
  have hbehind := background_behind hr
  exact {
    traced := h.traced.step hr
    session := by
      intro i hi
      rw [hbehind.submitted]
      exact (h.session i hi).frame (hbehind.slots i) (fun r hr => hr) (List.Sublist.refl _)
        fun r _ hr => hr
    idle := by
      intro i hi
      rw [hbehind.held] at hi
      exact h.idle i hi
    memory := h.memory.frame hbehind.submitted hbehind.dispatched }

theorem submitted {t : τ} {bufferId : ℕ} {ref : ι} {runtime : Runtime.State τ ι}
    {request : TaskRequest} (hmem : (t, bufferId) ∈ s.runtime.held)
    (hwalk : s.walk bufferId = none)
    (hr : Runtime.step s.runtime (.submit t bufferId ref) = .ok runtime)
    (hpacked : request.callbackFunc = .bnModExp ∧ ¬ request.WaitOver) :
    Sound (submitted s runtime bufferId ref request) := by
  have htraced := h.traced.step hr
  obtain ⟨hnew, rfl⟩ := submit_ok hr
  obtain ⟨hanswer, hfreed⟩ := h.fresh hnew
  exact {
    traced := htraced
    session := by
      intro i hi
      show Session i (Function.update s.runtime.outstanding.buffer bufferId _ i)
        (Function.update s.calls bufferId _ i) _ _ _
      by_cases hid : i = bufferId
      · subst hid
        have hsession := h.session i hi
        rw [hwalk] at hsession
        rw [Function.update_self, Function.update_self]
        show Session i _ _ (s.walk i) _ _
        rw [hwalk]
        exact hsession.queue rfl hnew hfreed _
      · rw [Function.update_of_ne hid, Function.update_of_ne hid]
        exact (h.session i hi).frame (SameSlots.refl _)
          (fun r hr => List.mem_append_left _ hr) (List.Sublist.refl _) fun r _ hr => hr
    idle := fun i hi => ⟨(h.idle_update hmem _ (s.walk bufferId) i hi).1, (h.idle i hi).2⟩
    memory := h.memory.submit rfl rfl hanswer hfreed hpacked }

theorem handed {t : τ} {bufferId : ℕ} (hmem : (t, bufferId) ∈ s.runtime.held)
    {w : Walk (Request ι)} (hw : s.walk bufferId = some w) (hj : w.batchSize ≤ w.j)
    {runtime : Runtime.State τ ι}
    (hr : Runtime.step (s.withBuffer bufferId
      { s.runtime.outstanding.buffer bufferId with nextDataOut := w.nextDataOut }).runtime
      (.release t bufferId) = .ok runtime) : Sound (handed s runtime bufferId) := by
  have hlt := h.lt_of_held hmem
  have hout := h.traced.set_out hlt w.nextDataOut
  have htraced := hout.step hr
  obtain ⟨o, hbuf, rfl⟩ := release_ok hout.owned hr
  exact {
    traced := htraced
    session := by
      intro i hi
      show Session i (o.buffer i) (Function.update s.calls bufferId _ i)
        (Function.update s.walk bufferId _ i) s.runtime.submitted s.freed
      rw [hbuf]
      show Session i (Function.update s.runtime.outstanding.buffer bufferId _ i) _ _
        s.runtime.submitted s.freed
      by_cases hid : i = bufferId
      · subst hid
        have hsession := h.session i hi
        rw [hw] at hsession
        rw [Function.update_self, Function.update_self, Function.update_self]
        exact hsession.giveBack hj
      · rw [Function.update_of_ne hid, Function.update_of_ne hid, Function.update_of_ne hid]
        exact h.session i hi
    idle := by
      intro i hi
      show Function.update s.calls bufferId [] i = [] ∧
        Function.update s.walk bufferId none i = none
      by_cases hid : i = bufferId
      · rw [hid, Function.update_self, Function.update_self]
        exact ⟨rfl, rfl⟩
      · rw [Function.update_of_ne hid, Function.update_of_ne hid]
        refine h.idle i fun hheld' => hi ?_
        obtain ⟨x, hx, rfl⟩ := List.mem_map.mp hheld'
        exact List.mem_map_of_mem ((List.mem_erase_of_ne fun hc => hid (by rw [hc])).mpr hx)
    memory := { h.memory.frame rfl (fun r hr => hr) with } }

/-- Every section keeps all of it, when the releases are told of every call. -/
theorem step {a : Action τ ι} (hplan : Planned s a) (hs : Sessions.step s a = .ok s') :
    Sound s' := by
  cases a with
  | acquire t bufferId =>
      obtain ⟨runtime, hr, hs⟩ := Section.bind_eq_ok.mp hs
      cases hs
      exact h.acquire hr
  | call t bufferId ref a =>
      obtain ⟨hmem, hwalk, ⟨-, rfl⟩ | ⟨request, runtime, hp, hr, rfl⟩⟩ := call_ok hs
      · exact h.failed hmem hwalk
      · exact h.submitted hmem hwalk hr (packRequest_ok hp)
  | background a =>
      obtain ⟨runtime, hr, hs⟩ := Section.bind_eq_ok.mp hs
      cases hs
      exact h.background hr
  | callback r out =>
      obtain ⟨hdisp, hanswer, request, hr, rfl⟩ := callback_ok hs
      exact h.answered hdisp hanswer hr out
  | release t bufferId batchSize =>
      obtain ⟨hmem, hwalk, rfl⟩ := enter_ok hs
      rw [show batchSize = (s.calls bufferId).length from hplan]
      exact h.entered hmem hwalk
  | look t bufferId =>
      obtain ⟨hmem, w, hw, -, hj, rfl⟩ := look_ok hs
      exact h.looked hmem hw hj
  | finish t bufferId =>
      obtain ⟨hmem, w, r, hw, hr, hanswer, rfl⟩ := h.finish_ok hs
      exact h.finished hmem hw hr hanswer
  | giveBack t bufferId =>
      obtain ⟨hmem, w, hw, hj, runtime, hr, rfl⟩ := giveBack_ok hs
      exact h.handed hmem hw hj hr

end Sound

variable [DecidableEq τ]

theorem step_ok {s s' : State τ ι} {a : Action τ ι} (h : (system τ ι).step s a = some s') :
    step s a = .ok s' :=
  Section.toOption_eq_some.mp h

theorem sound {s : State τ ι} (h : (system τ ι).ReachableIf Planned s) : Sound s := by
  refine h.invariant ?_ fun s a s' hs hplan hstep => hs.step hplan (step_ok hstep)
  rintro _ rfl
  exact Sound.initial

/-! ### Giving a buffer back -/

/-- What a release `w` has done when it gives the buffer back, from `s` to `s'`. -/
structure HandedBack (s s' : State τ ι) (bufferId : ℕ) (w : Walk (Request ι)) : Prop where
  /-- it was told of as many requests as the session has queued -/
  quantity : w.batchSize = (s.queued bufferId).length
  /-- all of them have been answered, and the answers are stored -/
  completed : ∀ r ∈ s.queued bufferId, ∃ out, s.answer r = some out ∧ s.output r = some out
  /-- these it has freed, and nothing else -/
  freed : w.freed = s.queued bufferId
  /-- each of them has been freed once in the whole run -/
  once : ∀ r ∈ s.queued bufferId, s'.freed.count r = 1
  /-- no session on another buffer has lost a request -/
  others : ∀ i < bufferCount, i ≠ bufferId → ∀ r ∈ s.queued i, r ∉ w.freed
  count : (s'.runtime.outstanding.buffer bufferId).count = 0
  out_eq : (s'.runtime.outstanding.buffer bufferId).nextDataOut
    = (s'.runtime.outstanding.buffer bufferId).nextFreeSlot
  free_eq : (s'.runtime.outstanding.buffer bufferId).nextFreeSlot
    = (s'.runtime.outstanding.buffer bufferId).nextDataSlot
  slots : ∀ i < bufferSize, (s'.runtime.outstanding.buffer bufferId).data i = none

theorem Sound.handed_back {s s' : State τ ι} (h : Sound s) {t : τ} {bufferId : ℕ}
    (hs : Sessions.step s (.giveBack t bufferId) = .ok s') :
    ∃ w, s.walk bufferId = some w ∧ HandedBack s s' bufferId w := by
  obtain ⟨hmem, w, hw, hj, runtime, hr, rfl⟩ := giveBack_ok hs
  have hafter := h.handed hmem hw hj hr
  have hlt := h.lt_of_held hmem
  have hsession := h.session bufferId hlt
  rw [hw] at hsession
  have hok := hsession.walk w rfl
  obtain ⟨hqueued, hsize, hall, -⟩ := hsession.through hj
  have hfreed : w.freed = s.queued bufferId := by
    have hlen : (s.calls bufferId).reduceOption.length = w.j := by rw [hqueued, hall]
    rw [hok.freed_eq (by omega), ← hlen, List.take_length]
    rfl
  have hmemfreed : ∀ r ∈ s.queued bufferId, r ∈ s.freed := fun r hr =>
    hok.freed.subset (hfreed ▸ hr)
  -- the buffer after the release is one without a session
  have hclean : Session bufferId (runtime.outstanding.buffer bufferId) [] none
      runtime.submitted s.freed := by
    have hidle := hafter.session bufferId hlt
    simpa only [Sessions.handed, Function.update_self] using hidle
  have hnone := fun x hx => hclean.filled.all_none (Nat.zero_le _) (x := x) hx
  have hdrained := hafter.traced.drained hlt hnone
  refine ⟨w, hw, {
    quantity := by rw [hok.planned, ← hqueued]; rfl
    completed := ?_
    freed := hfreed
    once := fun r hr => List.count_eq_one_of_mem h.memory.nodup (hmemfreed r hr)
    others := ?_
    count := hdrained.1
    out_eq := ?_
    free_eq := hdrained.2
    slots := hnone }⟩
  · intro r hr
    obtain ⟨out, hout⟩ := Option.isSome_iff_exists.mp (h.memory.freed r (hmemfreed r hr))
    exact ⟨out, hout, by rw [h.memory.output_eq, hout]⟩
  · intro i hi hne r hr hc
    rw [hfreed] at hc
    have hvia := ((h.session i hi).submitted r hr).1
    rw [(hsession.submitted r hc).1] at hvia
    exact hne (Option.some.inj hvia).symm
  · exact (hclean.free_eq.trans (Nat.mod_eq_of_lt hclean.filled.start_lt)).symm

/--
**A buffer is handed back clean.**

Whatever number of threads have their sessions on the buffers, each a number of calls and
a release that is told this number, and however the scheduler, the processing thread and
the callbacks come in between: a release that gives its buffer back has waited for every
request of its session, freed each of them once and no other, and left the ring empty.
-/
theorem hand_back {s s' : State τ ι} {t : τ} {bufferId : ℕ}
    (h : (system τ ι).ReachableIf Planned s)
    (hs : (system τ ι).step s (.giveBack t bufferId) = some s') :
    ∃ w, s.walk bufferId = some w ∧ HandedBack s s' bufferId w :=
  (sound h).handed_back (step_ok hs)

/-- Two threads use the first buffer one after the other.  The answers to the first come in the
other order, and its release has begun before its second request is dispatched. -/
def twoSessions : List (Action ℕ ℕ) :=
  [.acquire 1 7, .call 1 0 10 .all, .call 1 0 11 .all, .background .select,
    .background .extract, .background .submitList, .background (.read 48), .background .dispatch,
    .release 1 0 2, .look 1 0, .background .dispatch, .callback ⟨some 0, 11⟩ [4],
    .callback ⟨some 0, 10⟩ [3], .finish 1 0, .look 1 0, .finish 1 0, .giveBack 1 0,
    .acquire 2 7, .call 2 0 12 .all, .background .select, .background .extract,
    .background .submitList, .background (.read 48), .background .dispatch,
    .callback ⟨some 0, 12⟩ [9], .release 2 0 1, .look 2 0, .finish 2 0]

theorem hand_back_two : ∃ s s', (system ℕ ℕ).runIf Planned State.initial twoSessions = some s ∧
    (system ℕ ℕ).step s (.giveBack 2 0) = some s' ∧
      ∃ w, s.walk 0 = some w ∧ HandedBack s s' 0 w := by
  obtain ⟨s', hs'⟩ := Option.isSome_iff_exists.mp
    (show (((system ℕ ℕ).runIf Planned State.initial twoSessions).bind fun s =>
      (system ℕ ℕ).step s (.giveBack 2 0)).isSome by decide +kernel)
  obtain ⟨s, hs, hstep⟩ := Option.bind_eq_some_iff.mp hs'
  exact ⟨s, s', hs, hstep, hand_back (.runIf (.init rfl) hs) hstep⟩

end Sessions

end Ipcl.HeQat
