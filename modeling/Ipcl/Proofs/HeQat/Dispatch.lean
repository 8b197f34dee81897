/-
What busy replies do to a batch.

A plan says of every request in turn how often the device is busy before it gives a
definite answer, and what that is.  A dispatcher serves the plan when it has offered every
request until its answer came, when what the device has accepted was submitted once, and
when what it has refused is marked.  `start_perform_op` serves every plan in which the
retries do not run out.  `start_instances` serves those without a busy reply, and no
others: its thread is gone with the first one, and with it the rest of the batch.
-/
import Ipcl.HeQat.Dispatch

namespace Ipcl.HeQat.Dispatch

variable {ι : Type}

/-! ### Plans -/

/-- What the device does about a request: `busy` busy replies, and then `answer`. -/
structure Entry (ι : Type) where
  request : ι
  busy : Nat
  answer : CpaStatus
  deriving DecidableEq, Repr

/-- The answer comes before the retries run out. -/
structure Entry.Definite (e : Entry ι) : Prop where
  inTime : e.busy < maxRetry
  answered : e.answer ≠ .retry

/-- The replies to the calls for one request. -/
def Entry.replies (e : Entry ι) : List CpaStatus := List.replicate e.busy .retry ++ [e.answer]

/-- The calls for one request, with their replies. -/
def Entry.calls (e : Entry ι) : List (ι × CpaStatus) := e.replies.map fun x => (e.request, x)

/-- A device that gives these replies from call number `k` on. -/
def Answers (reply : Nat → CpaStatus) : Nat → List CpaStatus → Prop
  | _, [] => True
  | k, x :: l => reply k = x ∧ Answers reply (k + 1) l

theorem answers_append {reply : Nat → CpaStatus} {l m : List CpaStatus} {k : Nat} :
    Answers reply k (l ++ m) ↔ Answers reply k l ∧ Answers reply (k + l.length) m := by
  induction l generalizing k with
  | nil => simp [Answers]
  | cons x l ih =>
      simp only [List.cons_append, Answers, ih, List.length_cons, and_assoc]
      rw [show k + 1 + l.length = k + (l.length + 1) by omega]

/-- The requests the device accepts. -/
def accepted (plan : List (Entry ι)) : List ι :=
  (plan.filter fun e => e.answer = .success).map Entry.request

/-- The device refuses the request, or the wait for its answer fails. -/
def Marked (env : Surroundings ι) (plan : List (Entry ι)) (r : ι) : Prop :=
  ∃ e ∈ plan, e.request = r ∧ (e.answer = .success → env.completes r = false)

/-- What a call was about and what it gave, whichever the instance. -/
def Offer.call (o : Offer ι) : ι × CpaStatus := (o.request, o.reply)

/-- A plan has been served between two states. -/
structure Served (env : Surroundings ι) (s s' : State ι) (plan : List (Entry ι)) : Prop where
  running : s'.exited = false
  /-- every request is offered until it gets its answer, and no more -/
  offered : s'.offers.map Offer.call = s.offers.map Offer.call ++ plan.flatMap Entry.calls
  /-- what is accepted has been submitted once -/
  submitted :
    ((s'.offers.drop s.offers.length).filter fun o => o.reply = .success).map Offer.request
      = accepted plan
  marked : ∀ r, Marked env plan r → s'.tasks r = Offload.failed (s.tasks r)
  unmarked : ∀ r, ¬ Marked env plan r → s'.tasks r = s.tasks r
  counted : s'.requestCount = s.requestCount + UInt64.ofNat (accepted plan).length

theorem Entry.length_calls (e : Entry ι) : e.calls.length = e.replies.length := by
  simp [Entry.calls]

theorem Served.length_offers {env : Surroundings ι} {s s' : State ι} {plan : List (Entry ι)}
    (h : Served env s s' plan) :
    s'.offers.length = s.offers.length + (plan.flatMap Entry.replies).length := by
  have hlen := congrArg List.length h.offered
  simp only [List.length_append, List.length_map, List.length_flatMap] at hlen ⊢
  rw [hlen, List.map_congr_left fun e _ => e.length_calls]

/-- The one call for a request that the device may accept is the last. -/
theorem Entry.submitted_calls (e : Entry ι) :
    (e.calls.filter fun c => c.2 = .success).map Prod.fst
      = if e.answer = .success then [e.request] else [] := by
  by_cases ha : e.answer = .success
  · simp [Entry.calls, Entry.replies, ha]
  · simp [Entry.calls, Entry.replies, ha]

theorem accepted_eq_flatMap (plan : List (Entry ι)) :
    accepted plan = plan.flatMap fun e => if e.answer = .success then [e.request] else [] := by
  unfold accepted
  induction plan with
  | nil => rfl
  | cons e rest ih =>
      rw [List.flatMap_cons, ← ih, List.filter_cons]
      by_cases ha : e.answer = .success <;> simp [ha]

@[simp] theorem accepted_append (plan plan' : List (Entry ι)) :
    accepted (plan ++ plan') = accepted plan ++ accepted plan' := by simp [accepted]

/-- What has been offered says what has been submitted. -/
theorem submitted_of_offered {s s' : State ι} {plan : List (Entry ι)}
    (h : s'.offers.map Offer.call = s.offers.map Offer.call ++ plan.flatMap Entry.calls) :
    ((s'.offers.drop s.offers.length).filter fun o => o.reply = .success).map Offer.request
      = accepted plan := by
  have hdrop : (s'.offers.drop s.offers.length).map Offer.call = plan.flatMap Entry.calls := by
    rw [List.map_drop, h, List.drop_left' (by simp)]
  calc ((s'.offers.drop s.offers.length).filter fun o => o.reply = .success).map Offer.request
      = ((((s'.offers.drop s.offers.length).map Offer.call).filter
          fun c => c.2 = .success).map Prod.fst) := by
        rw [List.filter_map, List.map_map]
        rfl
    _ = plan.flatMap fun e => (e.calls.filter fun c => c.2 = .success).map Prod.fst := by
        rw [hdrop, List.filter_flatMap, List.map_flatMap]
    _ = accepted plan := by
        rw [accepted_eq_flatMap]
        simp only [Entry.submitted_calls]

@[simp] theorem failed_opType (t : TaskRequest) : (Offload.failed t).opType = t.opType := rfl

@[simp] theorem failed_failed (t : TaskRequest) :
    Offload.failed (Offload.failed t) = Offload.failed t := rfl

theorem Served.opType {env : Surroundings ι} {s s' : State ι} {plan : List (Entry ι)}
    (h : Served env s s' plan) (r : ι) : (s'.tasks r).opType = (s.tasks r).opType := by
  by_cases hm : Marked env plan r
  · rw [h.marked r hm, failed_opType]
  · rw [h.unmarked r hm]

/-! ### Plans one after the other -/

theorem Served.refl (env : Surroundings ι) {s : State ι} (hrun : s.exited = false) :
    Served env s s [] where
  running := hrun
  offered := by simp
  submitted := submitted_of_offered (by simp)
  marked r hm := by simp [Marked] at hm
  unmarked r _ := rfl
  counted := by simp [accepted]

theorem marked_append {env : Surroundings ι} {plan plan' : List (Entry ι)} {r : ι} :
    Marked env (plan ++ plan') r ↔ Marked env plan r ∨ Marked env plan' r := by
  simp only [Marked, List.mem_append, or_and_right, exists_or]

theorem Served.trans {env : Surroundings ι} {s s' s'' : State ι} {plan plan' : List (Entry ι)}
    (h : Served env s s' plan) (h' : Served env s' s'' plan') :
    Served env s s'' (plan ++ plan') := by
  have hoffered : s''.offers.map Offer.call
      = s.offers.map Offer.call ++ (plan ++ plan').flatMap Entry.calls := by
    rw [h'.offered, h.offered, List.flatMap_append, List.append_assoc]
  refine ⟨h'.running, hoffered, submitted_of_offered hoffered, fun r hm => ?_, fun r hm => ?_, ?_⟩
  · -- to mark a request twice is to mark it once
    rw [marked_append] at hm
    by_cases hm' : Marked env plan' r
    · rw [h'.marked r hm']
      by_cases hfst : Marked env plan r
      · rw [h.marked r hfst, failed_failed]
      · rw [h.unmarked r hfst]
    · rw [h'.unmarked r hm', h.marked r (hm.resolve_right hm')]
  · rw [marked_append, not_or] at hm
    rw [h'.unmarked r hm.2, h.unmarked r hm.1]
  · rw [h'.counted, h.counted, accepted_append, List.length_append, UInt64.ofNat_add,
      UInt64.add_assoc]

/-! ### One request -/

variable [DecidableEq ι] {env : Surroundings ι}

/-- The loop has made some calls in vain, and one that was answered. -/
def State.offered (s : State ι) (r : ι) (n : Nat) (answer : CpaStatus) : State ι :=
  { s with
    status := answer
    offers := s.offers ++
      (List.replicate n CpaStatus.retry ++ [answer]).map fun x => ⟨r, s.nextInstance, x⟩ }

omit [DecidableEq ι] in
theorem attempt_modExp (env : Surroundings ι) {s : State ι} {r : ι}
    (hop : (s.tasks r).opType = .modExp) (retry : Nat) {x : CpaStatus}
    (hx : env.reply s.offers.length = x) : attempt env r retry s
      = ({ s with status := x, offers := s.offers ++ [⟨r, s.nextInstance, x⟩] }, retry + 1) := by
  simp only [attempt, hop, hx]

omit [DecidableEq ι] in
/-- The loop goes on until the answer, by induction on the busy replies.  Each of them takes a
retry and there are enough. -/
theorem offer_definite {d : Dispatcher} {r : ι} {answer : CpaStatus} (hanswer : answer ≠ .retry) :
    ∀ (n retry : Nat) (s : State ι), (d.halts = true → n = 0) → retry + n < maxRetry →
      (s.tasks r).opType = .modExp →
      Answers env.reply s.offers.length (List.replicate n .retry ++ [answer]) →
      offer d env r retry s = s.offered r n answer := by
  intro n
  induction n with
  | zero =>
      intro retry s _ _ hop hans
      have hattempt := attempt_modExp env hop retry hans.1
      rw [offer]
      simp only [hattempt]
      rw [if_neg hanswer]
      rfl
  | succ n ih =>
      intro retry s hpatient hlt hop hans
      have hattempt := attempt_modExp env hop retry hans.1
      have hhalts : d.halts = false := by
        cases hh : d.halts with
        | false => rfl
        | true => exact absurd (hpatient hh) (Nat.succ_ne_zero n)
      rw [offer]
      simp only [hattempt]
      rw [if_pos trivial, if_neg (by simp [hhalts]), if_pos (by omega)]
      refine (ih (retry + 1) _ (by simp [hhalts]) (by omega) ?_ ?_).trans ?_
      · exact hop
      · rw [List.length_append]
        exact hans.2
      · simp [State.offered, List.replicate_succ]

omit [DecidableEq ι] in
/-- At a busy reply `start_instances` ends the thread. -/
theorem offer_halts {d : Dispatcher} (hhalts : d.halts = true) {r : ι} {s : State ι}
    (hop : (s.tasks r).opType = .modExp) (hbusy : env.reply s.offers.length = .retry)
    (retry : Nat) : (offer d env r retry s).exited = true := by
  have hattempt := attempt_modExp env hop retry hbusy
  rw [offer]
  simp only [hattempt]
  rw [if_pos trivial, if_pos hhalts]

@[simp] theorem book_exited (d : Dispatcher) (r : ι) (s : State ι) :
    (book d env r s).exited = s.exited := by
  unfold book
  split_ifs <;> rfl

@[simp] theorem book_offers (d : Dispatcher) (r : ι) (s : State ι) :
    (book d env r s).offers = s.offers := by
  unfold book
  split_ifs <;> rfl

theorem book_tasks (d : Dispatcher) (r : ι) (s : State ι) : (book d env r s).tasks =
    if s.status = .success ∧ env.completes r = true then s.tasks
    else Function.update s.tasks r (Offload.failed (s.tasks r)) := by
  unfold book
  by_cases hs : s.status = .success
  · by_cases hc : env.completes r = true
    · simp [hs, hc]
    · simp [hs, hc]
  · simp [hs]

theorem book_requestCount (d : Dispatcher) (r : ι) (s : State ι) : (book d env r s).requestCount =
    if s.status = .success then s.requestCount + 1 else s.requestCount := by
  unfold book
  split_ifs <;> rfl

omit [DecidableEq ι] in
theorem marked_singleton {e : Entry ι} {r : ι} : Marked env [e] r ↔
    e.request = r ∧ (e.answer = .success → env.completes r = false) := by
  simp [Marked]

/-- A dispatcher that is patient enough serves a request. -/
theorem served_dispatch {d : Dispatcher} {e : Entry ι} (hdef : e.Definite) {s : State ι}
    (hrun : s.exited = false) (hop : (s.tasks e.request).opType = .modExp)
    (hans : Answers env.reply s.offers.length e.replies) (hpatient : d.halts = true → e.busy = 0) :
    Served env s (dispatch d env s e.request) [e] := by
  have hoffer : offer d env e.request 0 s = s.offered e.request e.busy e.answer :=
    offer_definite hdef.answered e.busy 0 s hpatient (by simpa using hdef.inTime) hop hans
  have hdispatch : dispatch d env s e.request
      = book d env e.request (s.offered e.request e.busy e.answer) := by
    simp [dispatch, hoffer, State.offered, hrun]
  have hoffered : (dispatch d env s e.request).offers.map Offer.call
      = s.offers.map Offer.call ++ [e].flatMap Entry.calls := by
    simp [hdispatch, State.offered, Entry.calls, Entry.replies, Offer.call]
  refine ⟨?_, hoffered, submitted_of_offered hoffered, fun r hm => ?_, fun r hm => ?_, ?_⟩
  · simp [hdispatch, State.offered, hrun]
  · obtain ⟨rfl, hfails⟩ := marked_singleton.mp hm
    rw [hdispatch, book_tasks, if_neg, Function.update_self]
    · rfl
    · rintro ⟨hs, hc⟩
      rw [hfails hs] at hc
      cases hc
  · rw [marked_singleton] at hm
    rw [hdispatch, book_tasks]
    split_ifs with hbooked
    · rfl
    · have hne : r ≠ e.request := by
        rintro rfl
        refine hm ⟨rfl, fun hs => ?_⟩
        by_contra hc
        exact hbooked ⟨hs, by simpa using hc⟩
      rw [Function.update_of_ne hne]
      rfl
  · rw [hdispatch, book_requestCount]
    by_cases ha : e.answer = .success
    · simp [State.offered, accepted, ha]
    · simp [State.offered, accepted, ha]

/-! ### Whole batches -/

/-- What the dispatcher needs to know of a plan when it starts on it. -/
structure Planned (env : Surroundings ι) (s : State ι) (plan : List (Entry ι)) : Prop where
  running : s.exited = false
  packed : ∀ e ∈ plan, (s.tasks e.request).opType = .modExp
  definite : ∀ e ∈ plan, e.Definite
  answers : Answers env.reply s.offers.length (plan.flatMap Entry.replies)

omit [DecidableEq ι] in
/-- When the first request has been served, the rest is still planned. -/
theorem Planned.rest {s s' : State ι} {e : Entry ι} {rest : List (Entry ι)}
    (h : Planned env s (e :: rest)) (hserved : Served env s s' [e]) : Planned env s' rest where
  running := hserved.running
  packed f hf := by
    rw [hserved.opType]
    exact h.packed f (List.mem_cons_of_mem e hf)
  definite f hf := h.definite f (List.mem_cons_of_mem e hf)
  answers := by
    have hans := h.answers
    rw [List.flatMap_cons, answers_append] at hans
    rw [hserved.length_offers]
    simpa using hans.2

/-- The first request of a plan is served. -/
theorem Planned.served_head {d : Dispatcher} {s : State ι} {e : Entry ι} {rest : List (Entry ι)}
    (h : Planned env s (e :: rest)) (hpatient : d.halts = true → e.busy = 0) :
    Served env s (dispatch d env s e.request) [e] := by
  have hans := h.answers
  rw [List.flatMap_cons, answers_append] at hans
  exact served_dispatch (h.definite e List.mem_cons_self) h.running
    (h.packed e List.mem_cons_self) hans.1 hpatient

/-- A batch is served request by request. -/
theorem Planned.served {d : Dispatcher} {plan : List (Entry ι)} :
    ∀ {s : State ι}, Planned env s plan → (d.halts = true → ∀ e ∈ plan, e.busy = 0) →
      Served env s (dispatchBatch d env s (plan.map Entry.request)) plan := by
  induction plan with
  | nil =>
      intro s h _
      exact Served.refl env h.running
  | cons e rest ih =>
      intro s h hpatient
      have hhead := h.served_head fun hh => hpatient hh e List.mem_cons_self
      have hrest := ih (h.rest hhead) fun hh f hf => hpatient hh f (List.mem_cons_of_mem e hf)
      exact hhead.trans hrest

/-- A thread that has ended itself does nothing more. -/
theorem dispatchBatch_of_exited (d : Dispatcher) {s : State ι} (h : s.exited = true) :
    ∀ batch : List ι, dispatchBatch d env s batch = s := by
  intro batch
  induction batch with
  | nil => rfl
  | cons r rest ih =>
      have hstay : dispatch d env s r = s := if_pos h
      rw [dispatchBatch, List.foldl_cons, hstay]
      exact ih

/-- A plan with a busy reply ends the thread of `start_instances`. -/
theorem Planned.exited {d : Dispatcher} (hhalts : d.halts = true) {plan : List (Entry ι)} :
    ∀ {s : State ι}, Planned env s plan → (∃ e ∈ plan, e.busy ≠ 0) →
      (dispatchBatch d env s (plan.map Entry.request)).exited = true := by
  induction plan with
  | nil =>
      rintro s _ ⟨e, he, -⟩
      cases he
  | cons e rest ih =>
      rintro s h ⟨f, hf, hbusy⟩
      by_cases he : e.busy = 0
      · have hrest : f ∈ rest := by
          rcases List.mem_cons.mp hf with rfl | hrest
          · exact absurd he hbusy
          · exact hrest
        exact ih (h.rest (h.served_head fun _ => he)) ⟨f, hrest, hbusy⟩
      · have hfirst : env.reply s.offers.length = .retry := by
          obtain ⟨n, hn⟩ := Nat.exists_eq_succ_of_ne_zero he
          have hans := h.answers
          rw [List.flatMap_cons, Entry.replies, hn] at hans
          exact hans.1
        have hoffer := offer_halts hhalts (h.packed e List.mem_cons_self) hfirst 0
        have hexited : (dispatch d env s e.request).exited = true := by
          simp [dispatch, h.running, hoffer]
        rw [List.map_cons, dispatchBatch, List.foldl_cons, ← dispatchBatch,
          dispatchBatch_of_exited d hexited]
        exact hexited

/-- The batches the loop reads. -/
def batches (plan : List (List (Entry ι))) : List (List ι) := plan.map fun b => b.map Entry.request

theorem dispatchAll_batches (d : Dispatcher) (s : State ι) (plan : List (List (Entry ι))) :
    dispatchAll d env s (batches plan)
      = dispatchBatch d env s (plan.flatten.map Entry.request) := by
  rw [batches, dispatchAll, List.map_flatten, dispatchBatch, List.foldl_flatten]
  rfl

theorem some_update (f : ι → TaskRequest) (r : ι) (t : TaskRequest) :
    (fun x => some (Function.update f r t x)) = Function.update (fun x => some (f x)) r (some t) :=
  Function.comp_update some f r t

/-- With `start_instances` one call decides about a request, and what becomes of it is what
`Offload.offer` says. -/
theorem dispatch_eq_offer {o : Offload.State ι} {s : State ι}
    (htasks : o.tasks = fun r => some (s.tasks r)) (hstatus : o.status = s.status)
    (hrunning : s.exited = false) (hexited : o.exited = false)
    (hwait : ∀ r, env.completes r = true) (instanceCount : Nat) (r : ι) (rest : List ι) :
    let o' := Offload.offer false o r rest (s.tasks r) (env.reply s.offers.length)
    let s' := dispatch (startInstances instanceCount) env s r
    (o'.tasks = fun r => some (s'.tasks r)) ∧ o'.status = s'.status ∧ o'.exited = s'.exited := by
  intro o' s'
  have hoffer : offer (startInstances instanceCount) env r 0 s =
      if (attempt env r 0 s).1.status = .retry then { (attempt env r 0 s).1 with exited := true }
      else (attempt env r 0 s).1 := by
    rw [offer]
    rfl
  simp only [s', o', dispatch, hrunning, hoffer, Offload.offer, attempt, book, hwait]
  cases (s.tasks r).opType with
  | none =>
      simp only [hstatus]
      by_cases hretry : s.status = .retry
      · simp [hretry, htasks]
      by_cases hok : s.status = .success
      · simp [hok, htasks, hrunning, hexited]
      · simp [hretry, hok, htasks, hrunning, hexited, some_update]
  | modExp =>
      by_cases hretry : env.reply s.offers.length = .retry
      · simp [hretry, htasks]
      by_cases hok : env.reply s.offers.length = .success
      · simp [hok, htasks, hexited]
      · simp [hretry, hok, htasks, hexited, some_update]

/-- **Busy replies lose no request of `start_perform_op`, and `start_instances` loses one
unless there are none.** -/
theorem dispatchAll_serves_iff {s : State ι} {plan : List (List (Entry ι))}
    (h : Planned env s plan.flatten) (instanceCount : Nat) :
    Served env s (dispatchAll startPerformOp env s (batches plan)) plan.flatten ∧
      (Served env s (dispatchAll (startInstances instanceCount) env s (batches plan)) plan.flatten ↔
        ∀ e ∈ plan.flatten, e.busy = 0) := by
  rw [dispatchAll_batches, dispatchAll_batches]
  refine ⟨h.served (by simp [startPerformOp]), fun hserved => ?_, fun hq => h.served fun _ => hq⟩
  by_contra hc
  push Not at hc
  have hexited := h.exited (d := startInstances instanceCount) rfl hc
  rw [hserved.running] at hexited
  cases hexited

omit [DecidableEq ι]

/-- Requests as the API functions pack them, offered by a thread that has just started. -/
def State.packed : State ι where
  tasks _ := .packed .bnModExp 0
  status := .success
  nextInstance := 0
  requestCount := 0
  offers := []
  exited := false

/-- A device that gives these replies, and all others with success. -/
def device (replies : List CpaStatus) : Surroundings ι where
  reply k := replies.getD k .success
  completes _ := true

/-- Two batches: one request accepted, one refused after two busy replies, one accepted. -/
theorem dispatchAll_serves_three :
    Served (device [.success, .retry, .retry, .fail, .success]) State.packed
      (dispatchAll startPerformOp (device [.success, .retry, .retry, .fail, .success])
        State.packed (batches [[⟨5, 0, .success⟩, ⟨7, 2, .fail⟩], [⟨6, 0, .success⟩]]))
      (List.flatten [[⟨5, 0, .success⟩, ⟨7, 2, .fail⟩], [⟨6, 0, .success⟩]]) := by
  have h : Planned (device [.success, .retry, .retry, .fail, .success]) State.packed
      (List.flatten [[⟨5, 0, .success⟩, ⟨7, 2, .fail⟩], [⟨6, 0, .success⟩]]) := by
    refine ⟨rfl, fun _ _ => rfl, fun e he => ?_, ⟨rfl, rfl, rfl, rfl, rfl, trivial⟩⟩
    fin_cases he <;> exact ⟨by decide, by decide⟩
  exact (dispatchAll_serves_iff h 8).1

/-- One busy reply to the first of two requests: it is neither offered again nor marked, and
the second is not offered at all. -/
theorem not_dispatchAll_serves_two :
    let s' := dispatchAll (startInstances 8) (device [.retry]) State.packed
      (batches [[⟨5, 1, .success⟩, ⟨7, 0, .success⟩]])
    s'.exited = true ∧ s'.offers = [⟨5, 0, .retry⟩] ∧ s'.tasks = State.packed.tasks ∧
      ¬ Served (device [.retry]) State.packed s' [⟨5, 1, .success⟩, ⟨7, 0, .success⟩] := by
  intro s'
  have hrun : s' = { (State.packed : State Nat) with
      status := .retry, offers := [⟨5, 0, .retry⟩], exited := true } := by
    simp [s', dispatchAll, batches, dispatchBatch, dispatch, offer, attempt, State.packed,
      TaskRequest.packed, device, startInstances]
  rw [hrun]
  refine ⟨rfl, rfl, rfl, fun hserved => ?_⟩
  cases hserved.running

end Ipcl.HeQat.Dispatch
