/-
A barrier that is in step.

The barrier goes by slots, so what it finds depends on where it starts.  If that is the slot
of the first request of its batch, or if the batch has filled every slot, then the slots it
passes hold the batch: nobody writes to the ring meanwhile, because the sessions before the
batch are over and all their requests have gone through the scheduler.  Then it waits for
every request of the batch, and frees it.

Where it starts is where the last barrier has stopped.  A session between two batches moves
the batch on but not the barrier, and so does a new acquisition, which sets the ring back
to its first slot.
-/
import Ipcl.HeQat.Barrier
import Ipcl.Proofs.HeQat.Sessions

namespace Ipcl.HeQat.Barrier

open Ipcl.HeQat.Runtime (lane Related)

variable {τ ι : Type}

/-! ### Requests that do not go through a buffer -/

section
variable [DecidableEq τ] [DecidableEq ι] {s : Sessions.State τ ι} (h : Sessions.Sound s)
include h

omit h in
/-- What a direct submission does to the runtime. -/
theorem submitDirect_ok {ref : ι} {runtime : Runtime.State τ ι}
    (hr : Runtime.step s.runtime (.submitDirect ref) = .ok runtime) :
    (⟨none, ref⟩ : Request ι) ∉ s.runtime.submitted ∧ runtime = { s.runtime with
      heQatBuffer := { s.runtime.heQatBuffer with
        data := Function.update s.runtime.heQatBuffer.data s.runtime.heQatBuffer.nextFreeSlot
          (some ⟨none, ref⟩)
        nextFreeSlot := (s.runtime.heQatBuffer.nextFreeSlot + 1) % bufferSize
        count := s.runtime.heQatBuffer.count + 1 }
      submitted := s.runtime.submitted ++ [⟨none, ref⟩] } := by
  obtain ⟨_, hwait, hr⟩ := Section.bind_eq_ok.mp hr
  obtain ⟨b, hb, hr⟩ := Section.bind_eq_ok.mp hr
  cases hr
  refine ⟨of_waitWhile_ok hwait, ?_⟩
  rw [submitRequest_ok hb]

/-- A direct submission is no concern of the sessions. -/
theorem sound_submitDirect {ref : ι} {runtime : Runtime.State τ ι}
    (hr : Runtime.step s.runtime (.submitDirect ref) = .ok runtime) (opData : ℕ) :
    Sessions.Sound { s with
      runtime := runtime
      task := Function.update s.task ⟨none, ref⟩ (some (.packed .bnModExp opData)) } := by
  have htraced := h.traced.step hr
  obtain ⟨hnew, rfl⟩ := submitDirect_ok hr
  obtain ⟨hanswer, hfreed⟩ := h.fresh hnew
  exact {
    traced := htraced
    session := fun i hi => (h.session i hi).frame (SameSlots.refl _)
      (fun r hr => List.mem_append_left _ hr) (List.Sublist.refl _) fun r _ hr => hr
    idle := h.idle
    memory := h.memory.allocate rfl rfl hanswer hfreed ⟨rfl, by simp [TaskRequest.WaitOver,
      TaskRequest.packed]⟩ }

omit [DecidableEq τ] in
/-- Nor is a request of this interface that is freed, when it has been answered. -/
theorem sound_dispose {r : Request ι} (hvia : r.via = none) (hanswer : (s.answer r).isSome)
    (hunfreed : r ∉ s.freed) {x : ℕ} (hx : s.runtime.heQatBuffer.data x = some r) :
    Sessions.Sound { s with
      runtime := { s.runtime with heQatBuffer := { s.runtime.heQatBuffer with
        data := Function.update s.runtime.heQatBuffer.data x none } }
      task := Function.update s.task r none
      freed := s.freed ++ [r] } where
  traced := by
    obtain ⟨t, ht, hR⟩ := h.traced
    have hord := Pipeline.State.Ordered.of_reachable ht
    have hread : r ∉ t.trunk := hord.not_mem_trunk (hR.delivered ▸ h.memory.answered r hanswer)
    exact ⟨t, ht, { hR with trunk := hR.trunk.update hx hread none }⟩
  session i hi := (h.session i hi).frame (SameSlots.refl _) (fun q hq => hq)
    (List.sublist_append_left _ _) fun q hq hfreed => by
      refine (List.mem_append.mp hfreed).resolve_right fun hc => ?_
      rw [List.mem_singleton.mp hc, hvia] at hq
      cases hq
  idle := h.idle
  memory := { h.memory.dispose hanswer hunfreed with }

end

/-! ### Sessions that are over -/

/-- A request of a session has been dispatched, or the session is not over. -/
def Through (s : Sessions.State τ ι) : Prop :=
  ∀ r ∈ s.runtime.submitted, ∀ i, r.via = some i → r ∈ s.runtime.dispatched ∨ r ∈ s.queued i

section
variable {s s' : Sessions.State τ ι}

theorem Through.frame (h : Through s) (hsub : ∀ r ∈ s'.runtime.submitted, r ∈ s.runtime.submitted)
    (hdisp : ∀ r ∈ s.runtime.dispatched, r ∈ s'.runtime.dispatched)
    (hqueued : ∀ i, s'.queued i = s.queued i) : Through s' := by
  intro r hr i hi
  rw [hqueued]
  exact (h r (hsub r hr) i hi).imp_left (hdisp r)

theorem Through.failed (h : Through s) (bufferId : ℕ) : Through (Sessions.failed s bufferId) := by
  refine h.frame (fun r hr => hr) (fun r hr => hr) fun i => ?_
  by_cases hi : i = bufferId
  · subst hi
    simp [Sessions.State.queued, Sessions.failed, List.reduceOption_append]
  · simp [Sessions.State.queued, Sessions.failed, Function.update_of_ne hi]

variable [DecidableEq ι]

theorem Through.submitted (h : Through s) {runtime : Runtime.State τ ι} {bufferId : ℕ} {ref : ι}
    (hsub : runtime.submitted = s.runtime.submitted ++ [⟨some bufferId, ref⟩])
    (hdisp : runtime.dispatched = s.runtime.dispatched) (request : TaskRequest) :
    Through (Sessions.submitted s runtime bufferId ref request) := by
  intro r hr i hi
  show r ∈ runtime.dispatched ∨ r ∈ (Function.update s.calls bufferId _ i).reduceOption
  replace hr : r ∈ s.runtime.submitted ++ [⟨some bufferId, ref⟩] := hsub ▸ hr
  rw [hdisp]
  rcases List.mem_append.mp hr with hold | hnew
  · refine (h r hold i hi).imp_right fun hq => ?_
    by_cases hid : i = bufferId
    · subst hid
      rw [Function.update_self, List.reduceOption_append]
      exact List.mem_append_left _ hq
    · rwa [Function.update_of_ne hid]
  · rw [List.mem_singleton.mp hnew] at hi ⊢
    cases hi
    right
    rw [Function.update_self, List.reduceOption_append]
    exact List.mem_append_right _ (List.mem_singleton_self _)

variable [DecidableEq τ]

/-- The end of a session has waited for its requests. -/
theorem Through.giveBack (h : Through s) (hsound : Sessions.Sound s) {t : τ} {bufferId : ℕ}
    (hs : Sessions.step s (.giveBack t bufferId) = .ok s') : Through s' := by
  obtain ⟨-, w, o, -, -, -, hs'⟩ := hsound.giveBack_effect hs
  obtain ⟨w', -, hback⟩ := hsound.handed_back hs
  intro r hr i hi
  rw [hs'] at hr ⊢
  rcases h r hr i hi with hdisp | hqueued
  · exact .inl hdisp
  · by_cases hid : i = bufferId
    · subst hid
      obtain ⟨out, hout, -⟩ := hback.completed r hqueued
      exact .inl (hsound.memory.answered r (by rw [hout]; rfl))
    · right
      show r ∈ (Function.update s.calls bufferId [] i).reduceOption
      rwa [Function.update_of_ne hid]

theorem Through.step (h : Through s) (hsound : Sessions.Sound s) {a : Sessions.Action τ ι}
    (hs : Sessions.step s a = .ok s') : Through s' := by
  cases a with
  | acquire t bufferId =>
      obtain ⟨runtime, hr, hs⟩ := Section.bind_eq_ok.mp hs
      cases hs
      obtain ⟨id, o, -, rfl⟩ := Sessions.acquire_ok hsound.traced.owned hr
      exact h.frame (fun r hr => hr) (fun r hr => hr) fun i => rfl
  | call t bufferId ref a =>
      obtain ⟨-, -, ⟨-, rfl⟩ | ⟨request, runtime, -, hr, rfl⟩⟩ := Sessions.call_ok hs
      · exact h.failed bufferId
      · obtain ⟨-, hruntime⟩ := Sessions.submit_ok hr
        exact h.submitted (by rw [hruntime]) (by rw [hruntime]) request
  | background a =>
      obtain ⟨runtime, hr, hs⟩ := Section.bind_eq_ok.mp hs
      cases hs
      have hbehind := Sessions.background_behind hr
      refine h.frame (fun r hr => ?_) hbehind.dispatched fun i => rfl
      rwa [← hbehind.submitted]
  | callback r out =>
      obtain ⟨-, -, request, -, rfl⟩ := Sessions.callback_ok hs
      exact h.frame (fun r hr => hr) (fun r hr => hr) fun i => rfl
  | release t bufferId batchSize =>
      obtain ⟨-, -, rfl⟩ := Sessions.enter_ok hs
      exact h.frame (fun r hr => hr) (fun r hr => hr) fun i => rfl
  | look t bufferId =>
      obtain ⟨-, w, -, -, -, rfl⟩ := Sessions.look_ok hs
      exact h.frame (fun r hr => hr) (fun r hr => hr) fun i => rfl
  | finish t bufferId =>
      obtain ⟨-, w, r, -, -, -, rfl⟩ := hsound.finish_ok hs
      exact h.frame (fun r hr => hr) (fun r hr => hr) fun i => rfl
  | giveBack t bufferId => exact h.giveBack hsound hs

omit [DecidableEq τ] in
/-- With no session open the scheduler has nothing in its hand. -/
theorem Through.hand_empty (h : Through s) (hsound : Sessions.Sound s)
    (hheld : s.runtime.held = []) : s.runtime.schedulerList.count = 0 := by
  obtain ⟨t, ht, hR⟩ := hsound.traced
  have hord := Pipeline.State.Ordered.of_reachable ht
  have hhand : t.hand = [] := by
    refine List.eq_nil_iff_forall_not_mem.mpr fun r hr => ?_
    obtain ⟨i, hi⟩ := Option.ne_none_iff_exists'.mp (hord.hand_lane r hr)
    have hidle := (hsound.idle i (by simp [hheld])).1
    rcases h r (hR.submitted ▸ hord.hand_submitted hr) i hi with hdisp | hqueued
    · exact hord.not_mem_hand (hR.delivered ▸ hdisp) hr
    · simp [Sessions.State.queued, hidle] at hqueued
  rw [hR.hand.count_eq, hhand, List.length_nil]

/-- Then what goes on in the background does not write to the ring. -/
theorem background_ring (hempty : s.runtime.schedulerList.count = 0) {a : Sessions.Background}
    {runtime : Runtime.State τ ι} (hs : Runtime.step s.runtime a.action = .ok runtime) :
    SameSlots s.runtime.heQatBuffer runtime.heQatBuffer := by
  cases a with
  | select =>
      obtain ⟨-, -, hs⟩ := Section.bind_eq_ok.mp hs
      obtain ⟨index, -, hs⟩ := Section.bind_eq_ok.mp hs
      cases hs
      exact SameSlots.refl _
  | extract =>
      cases hat : s.runtime.scheduler with
      | select => simp only [Sessions.Background.action, Runtime.step, hat, reduceCtorEq] at hs
      | submit => simp only [Sessions.Background.action, Runtime.step, hat, reduceCtorEq] at hs
      | extract index =>
          simp only [Sessions.Background.action, Runtime.step, hat] at hs
          obtain ⟨b, -, hs⟩ := Section.bind_eq_ok.mp hs
          obtain ⟨l, -, hs⟩ := Section.bind_eq_ok.mp hs
          cases hs
          exact SameSlots.refl _
  | submitList =>
      obtain ⟨-, -, hs⟩ := Section.bind_eq_ok.mp hs
      obtain ⟨⟨b, l⟩, hlist, hs⟩ := Section.bind_eq_ok.mp hs
      cases hs
      rw [submitRequestList, if_pos hempty] at hlist
      cases hlist
      exact SameSlots.refl _
  | read maxRequests =>
      obtain ⟨-, -, hs⟩ := Section.bind_eq_ok.mp hs
      obtain ⟨⟨l, b⟩, hread, hs⟩ := Section.bind_eq_ok.mp hs
      cases hs
      exact readRequestList_sameSlots hread
  | dispatch =>
      obtain ⟨-, -, hs⟩ := Section.bind_eq_ok.mp hs
      obtain ⟨r, -, hs⟩ := Section.bind_eq_ok.mp hs
      cases r with
      | none => cases hs
      | some r =>
          obtain ⟨request, -, hs⟩ := Section.bind_eq_ok.mp hs
          split at hs <;> cases hs <;> exact SameSlots.refl _

end

/-! ### The batch and the barrier -/

/-- A step of the barrier belongs to the one in progress. -/
theorem waiting_ok {s s' : State τ ι} {f : Wait (Request ι) → Section (State τ ι)}
    (hs : waiting s f = .ok s') : ∃ w, s.wait = some w ∧ f w = .ok s' := by
  cases hw : s.wait with
  | none =>
      rw [waiting, hw] at hs
      cases hs
  | some w =>
      rw [waiting, hw] at hs
      exact ⟨w, rfl, hs⟩

theorem waiting_error {s : State τ ι} {f : Wait (Request ι) → Section (State τ ι)} {e : Stop}
    (hs : waiting s f = .error e) : e = .blocked ∨ ∃ w, s.wait = some w ∧ f w = .error e := by
  cases hw : s.wait with
  | none =>
      rw [waiting, hw] at hs
      cases hs
      exact .inl rfl
  | some w =>
      rw [waiting, hw] at hs
      exact .inr ⟨w, rfl, hs⟩

/-- Before the barrier the batch is in the slots up to the free one. -/
structure Open (s : State τ ι) : Prop where
  slots : ∃ start, Ring.Holds bufferSize s.ring.data s.batch.length s.ring.nextFreeSlot start
    (s.batch.map some)
  unfreed : ∀ r ∈ s.batch, r ∉ s.sessions.freed

/-- The barrier `w` has still `todo` of the batch to wait for, in the slots from its index on. -/
structure Waiting (s : State τ ι) (w : Wait (Request ι)) (todo : List (Request ι)) : Prop where
  size : w.batchSize = s.batch.length
  pos : 0 < s.batch.length
  left : w.j + todo.length = w.batchSize
  perm : (w.freed ++ todo).Perm s.batch
  slots : ∃ free, Ring.Holds bufferSize s.ring.data todo.length free s.blockAtIndex (todo.map some)
  unfreed : ∀ r ∈ todo, r ∉ s.sessions.freed
  freed : ∀ r ∈ w.freed, r ∈ s.sessions.freed
  task : ∀ r, w.task = some r → todo.head? = some r

/-- The sessions are as they should be, and so is the batch. -/
structure Kept [DecidableEq ι] (s : State τ ι) : Prop where
  sound : Sessions.Sound s.sessions
  through : Through s.sessions
  alone : s.Busy → s.sessions.runtime.held = []
  block_lt : s.blockAtIndex < bufferSize
  batch : ∀ r ∈ s.batch, r.via = none ∧ r ∈ s.sessions.runtime.submitted
  nodup : s.batch.Nodup
  before : s.wait = none → Open s
  during : ∀ w, s.wait = some w → ∃ todo, Waiting s w todo

section
variable [DecidableEq ι]

theorem free_lt {s : Sessions.State τ ι} (h : Sessions.Sound s) :
    s.runtime.heQatBuffer.nextFreeSlot < bufferSize := by
  obtain ⟨t, -, hR⟩ := h.traced
  exact hR.trunk.free_lt

omit [DecidableEq ι] in
theorem Open.nil {s : State τ ι} (hbatch : s.batch = []) (hlt : s.ring.nextFreeSlot < bufferSize) :
    Open s where
  slots := by
    rw [hbatch]
    exact ⟨s.ring.nextFreeSlot, {
      length := rfl
      le_size := Nat.zero_le _
      next_lt := hlt
      free_eq := (Nat.mod_eq_of_lt hlt).symm
      get := fun i hi => absurd hi (Nat.not_lt_zero i) }⟩
  unfreed r hr := by
    rw [hbatch] at hr
    cases hr

omit [DecidableEq ι] in
theorem not_busy {s : State τ ι} (h : ¬ s.Busy) : s.batch = [] ∧ s.wait = none := by
  simpa [State.Busy] using h

/-- Between two batches there is nothing to keep. -/
theorem Kept.idle {s : State τ ι} (hsound : Sessions.Sound s.sessions)
    (hthrough : Through s.sessions) (hblock : s.blockAtIndex < bufferSize) (hbusy : ¬ s.Busy) :
    Kept s where
  sound := hsound
  through := hthrough
  alone hc := absurd hc hbusy
  block_lt := hblock
  batch r hr := by
    rw [(not_busy hbusy).1] at hr
    cases hr
  nodup := by
    rw [(not_busy hbusy).1]
    exact List.nodup_nil
  before _ := .nil (not_busy hbusy).1 (free_lt hsound)
  during w hw := by
    rw [(not_busy hbusy).2] at hw
    cases hw

variable [DecidableEq τ]

omit [DecidableEq τ] in
theorem Kept.initial : Kept (State.initial : State τ ι) :=
  .idle Sessions.Sound.initial (fun r hr => by cases hr) (Nat.zero_lt_succ 1023)
    (by simp [State.Busy, State.initial])

/-- The other threads leave the batch alone. -/
theorem idle_session {s s' : Sessions.State τ ι} (hsound : Sessions.Sound s)
    (hthrough : Through s) (hheld : s.runtime.held = []) {a : Sessions.Action τ ι}
    (ha : a.thread = none) (hs : Sessions.step s a = .ok s') :
    SameSlots s.runtime.heQatBuffer s'.runtime.heQatBuffer ∧
      s'.runtime.held = s.runtime.held ∧ s'.runtime.submitted = s.runtime.submitted ∧
        s'.freed = s.freed := by
  cases a with
  | background a =>
      obtain ⟨runtime, hr, hs⟩ := Section.bind_eq_ok.mp hs
      cases hs
      have hbehind := Sessions.background_behind hr
      exact ⟨background_ring (hthrough.hand_empty hsound hheld) hr, hbehind.held,
        hbehind.submitted, rfl⟩
  | callback r out =>
      obtain ⟨-, -, request, -, rfl⟩ := Sessions.callback_ok hs
      exact ⟨SameSlots.refl _, rfl, rfl, rfl⟩
  | acquire | call | release | look | finish | giveBack => cases ha

variable {s s' : State τ ι}

theorem Kept.session (h : Kept s) {a : Sessions.Action τ ι} {sessions : Sessions.State τ ι}
    (hbetween : ¬ (a.thread.isSome ∧ s.Busy)) (hplan : Sessions.Planned s.sessions a)
    (hs : Sessions.step s.sessions a = .ok sessions) : Kept { s with sessions := sessions } := by
  have hsound := h.sound.step hplan hs
  have hthrough := h.through.step h.sound hs
  by_cases hbusy : s.Busy
  · have hnone : a.thread = none := by
      rw [← Option.not_isSome_iff_eq_none]
      exact fun hc => hbetween ⟨hc, hbusy⟩
    have hheld := h.alone hbusy
    obtain ⟨hring, hheld', hsub, hfreed⟩ := idle_session h.sound h.through hheld hnone hs
    refine {
      sound := hsound
      through := hthrough
      alone := fun _ => hheld'.trans hheld
      block_lt := h.block_lt
      batch := fun r hr => ⟨(h.batch r hr).1, ?_⟩
      nodup := h.nodup
      before := fun hw => ?_
      during := fun w hw => ?_ }
    · show r ∈ sessions.runtime.submitted
      rw [hsub]
      exact (h.batch r hr).2
    · obtain ⟨⟨start, hslots⟩, hunfreed⟩ := h.before hw
      refine ⟨⟨start, ?_⟩, fun r hr => ?_⟩
      · show Ring.Holds bufferSize sessions.runtime.heQatBuffer.data s.batch.length
          sessions.runtime.heQatBuffer.nextFreeSlot start (s.batch.map some)
        rw [hring.data_eq, hring.free_eq]
        exact hslots
      · show r ∉ sessions.freed
        rw [hfreed]
        exact hunfreed r hr
    · obtain ⟨todo, hwait⟩ := h.during w hw
      obtain ⟨free, hslots⟩ := hwait.slots
      refine ⟨todo, { hwait with slots := ⟨free, ?_⟩, unfreed := ?_, freed := ?_ }⟩
      · show Ring.Holds bufferSize sessions.runtime.heQatBuffer.data _ _ _ _
        rw [hring.data_eq]
        exact hslots
      · show ∀ r ∈ todo, r ∉ sessions.freed
        rw [hfreed]
        exact hwait.unfreed
      · show ∀ r ∈ w.freed, r ∈ sessions.freed
        rw [hfreed]
        exact hwait.freed
  · exact .idle hsound hthrough h.block_lt hbusy

/-- A submission adds its request at the free slot. -/
theorem Kept.submit (h : Kept s) (hwait : s.wait = none) (hheld : s.sessions.runtime.held = [])
    (hroom : s.batch.length < bufferSize) {ref : ι} {opData : ℕ}
    (hs : submit s ref opData = .ok s') : Kept s' := by
  obtain ⟨runtime, hr, hs⟩ := Section.bind_eq_ok.mp hs
  have hsound := sound_submitDirect h.sound hr opData
  obtain ⟨hnew, hruntime⟩ := submitDirect_ok hr
  obtain ⟨-, hunfreed⟩ := h.sound.fresh hnew
  obtain ⟨⟨start, hslots⟩, hold⟩ := h.before hwait
  cases hs
  subst hruntime
  refine {
    sound := hsound
    through := fun r hr i hi => ?_
    alone := fun _ => hheld
    block_lt := h.block_lt
    batch := fun r hr => ?_
    nodup := ?_
    before := fun _ => ⟨⟨start, ?_⟩, fun r hr => ?_⟩
    during := fun w hw => by
      rw [show s.wait = some w from hw] at hwait
      cases hwait }
  · rcases List.mem_append.mp hr with hr | hr
    · exact h.through r hr i hi
    · rw [List.mem_singleton.mp hr] at hi
      cases hi
  · rcases List.mem_append.mp hr with hr | hr
    · exact ⟨(h.batch r hr).1, List.mem_append_left _ (h.batch r hr).2⟩
    · rw [List.mem_singleton.mp hr]
      exact ⟨rfl, List.mem_append_right _ (List.mem_singleton_self _)⟩
  · refine List.nodup_append.mpr ⟨h.nodup, List.nodup_singleton _, fun q hq r hr heq => ?_⟩
    rw [heq, List.mem_singleton.mp hr] at hq
    exact hnew (h.batch _ hq).2
  · have hpush := hslots.push hroom (some ⟨none, ref⟩)
    rw [← List.map_singleton, ← List.map_append] at hpush
    simp only [List.length_append, List.length_singleton]
    exact hpush
  · rcases List.mem_append.mp hr with hr | hr
    · exact hold r hr
    · rw [List.mem_singleton.mp hr]
      exact hunfreed

omit [DecidableEq τ] in
/-- A barrier that is in step has its batch before it. -/
theorem Kept.wait (h : Kept s) (hwait : s.wait = none) (hbatch : s.batch ≠ [])
    (hin : InStep s .wait) : Kept { s with
      wait := some { batchSize := s.batch.length, j := 0, task := none, freed := [] } } := by
  obtain ⟨⟨start, hslots⟩, hunfreed⟩ := h.before hwait
  obtain ⟨todo, hperm, free, htodo⟩ : ∃ todo : List (Request ι), todo.Perm s.batch ∧ ∃ free,
      Ring.Holds bufferSize s.ring.data todo.length free s.blockAtIndex (todo.map some) := by
    rcases hin with halign | hfull
    · have hmod : s.blockAtIndex + s.batch.length ≡ start + s.batch.length [MOD bufferSize] :=
        halign.trans hslots.free_eq
      have hstart := Nat.ModEq.eq_of_lt_of_lt (Nat.ModEq.add_right_cancel' _ hmod) h.block_lt
        hslots.next_lt
      exact ⟨s.batch, List.Perm.refl _, _, hstart ▸ hslots⟩
    · rw [hfull] at hslots
      obtain ⟨k, hrotated⟩ := hslots.rotate h.block_lt
      refine ⟨s.batch.rotate k, List.rotate_perm _ k, s.blockAtIndex, ?_⟩
      rw [List.length_rotate, hfull, List.map_rotate]
      exact hrotated
  refine {
    sound := h.sound
    through := h.through
    alone := fun _ => h.alone (.inl hbatch)
    block_lt := h.block_lt
    batch := h.batch
    nodup := h.nodup
    before := fun hc => by cases hc
    during := fun w hw => ?_ }
  cases hw
  exact ⟨todo, {
    size := rfl
    pos := List.length_pos_iff.mpr hbatch
    left := by rw [Nat.zero_add, hperm.length_eq]
    perm := by rwa [List.nil_append]
    slots := ⟨free, htodo⟩
    unfreed := fun r hr => hunfreed r (hperm.mem_iff.mp hr)
    freed := fun r hr => by cases hr
    task := fun r hr => by cases hr }⟩

omit [DecidableEq ι] [DecidableEq τ] in
/-- As long as the barrier has not come to its end there is something to wait for. -/
theorem Waiting.more {w : Wait (Request ι)} {todo : List (Request ι)} (hw : Waiting s w todo)
    (hloop : ¬ (0 < w.j ∧ w.j ≥ w.batchSize)) : ∃ r rest, todo = r :: rest := by
  refine List.exists_cons_of_ne_nil fun hnil => ?_
  have hleft := hw.left
  have hpos := hw.pos
  have hsize := hw.size
  rw [hnil, List.length_nil] at hleft
  omega

omit [DecidableEq ι] [DecidableEq τ] in
/-- The slot the barrier is at holds the first of them. -/
theorem Waiting.slot {w : Wait (Request ι)} {r : Request ι} {rest : List (Request ι)}
    (hw : Waiting s w (r :: rest)) : s.ring.data s.blockAtIndex = some r := by
  obtain ⟨free, hslots⟩ := hw.slots
  exact hslots.head

omit [DecidableEq τ] in
/-- At the head of the loop the barrier finds a request. -/
theorem Kept.look_ok (h : Kept s) {w : Wait (Request ι)} (hw : s.wait = some w)
    (hs : look s w = .ok s') :
    ∃ r rest, Waiting s w (r :: rest) ∧ s' = { s with wait := some { w with task := some r } } := by
  obtain ⟨todo, hwait⟩ := h.during w hw
  obtain ⟨_, hguard, hs⟩ := Section.bind_eq_ok.mp hs
  obtain ⟨task, hload, hs⟩ := Section.bind_eq_ok.mp hs
  obtain ⟨r, rest, rfl⟩ := hwait.more (not_or.mp (of_waitWhile_ok hguard)).2
  rw [load_eq_ok hload, hwait.slot] at hs
  exact ⟨r, rest, hwait, (Except.ok.inj hs).symm⟩

omit [DecidableEq τ] in
theorem Kept.look (h : Kept s) {w : Wait (Request ι)} (hw : s.wait = some w)
    (hs : look s w = .ok s') : Kept s' := by
  obtain ⟨r, rest, hwait, rfl⟩ := h.look_ok hw hs
  refine { h with
    alone := fun _ => h.alone (.inr (by rw [hw]; rfl))
    before := fun hc => by cases hc
    during := fun w' hw' => ?_ }
  cases hw'
  refine ⟨r :: rest, { hwait with task := fun q hq => ?_ }⟩
  cases hq
  rfl

omit [DecidableEq τ] in
/-- The request the barrier has read is one of its batch, and in memory. -/
theorem Kept.at_task (h : Kept s) {w : Wait (Request ι)} (hw : s.wait = some w) {r : Request ι}
    (hr : w.task = some r) :
    ∃ rest request, Waiting s w (r :: rest) ∧ r ∈ s.batch ∧ s.sessions.task r = some request ∧
      (request.WaitOver ↔ (s.sessions.answer r).isSome) := by
  obtain ⟨todo, hwait⟩ := h.during w hw
  obtain ⟨rest, rfl⟩ : ∃ rest, todo = r :: rest := by
    cases todo with
    | nil => cases hwait.task r hr
    | cons q rest =>
        cases hwait.task r hr
        exact ⟨rest, rfl⟩
  have hmem : r ∈ s.batch := hwait.perm.mem_iff.mp
    (List.mem_append_right _ List.mem_cons_self)
  have halloc := (h.sound.memory.allocated r).mpr
    ⟨(h.batch r hmem).2, hwait.unfreed r List.mem_cons_self⟩
  obtain ⟨request, hrequest⟩ := Option.isSome_iff_exists.mp halloc
  exact ⟨rest, request, hwait, hmem, hrequest, (h.sound.memory.packed r request hrequest).2⟩

/-- After a round of the barrier on the request `r`. -/
def finished (s : State τ ι) (w : Wait (Request ι)) (r : Request ι) : State τ ι :=
  { s with
    sessions := { s.sessions with
      runtime := { s.sessions.runtime with heQatBuffer := { s.ring with
        data := Function.update s.ring.data s.blockAtIndex none } }
      task := Function.update s.sessions.task r none
      freed := s.sessions.freed ++ [r] }
    blockAtIndex := (s.blockAtIndex + 1) % bufferSize
    wait := some { w with j := w.j + 1, task := none, freed := w.freed ++ [r] } }

omit [DecidableEq τ] in
/-- A round ends exactly when its request has been answered, and frees that request. -/
theorem Kept.finish_iff (h : Kept s) {w : Wait (Request ι)} (hw : s.wait = some w) :
    finish s w = .ok s' ↔
      ∃ r, w.task = some r ∧ (s.sessions.answer r).isSome ∧ s' = finished s w r := by
  cases hr : w.task with
  | none => simp [finish, hr]
  | some r =>
      obtain ⟨rest, request, hwait, -, hrequest, hready⟩ := h.at_task hw hr
      by_cases hanswer : (s.sessions.answer r).isSome
      · have hrun : finish s w = .ok (finished s w r) := by
          simp only [finish, hr, hrequest]
          rw [waitWhile_ok (not_not.mpr (hready.mpr hanswer)), Section.bind_ok,
            load_ok h.block_lt, Section.bind_ok, hwait.slot, free,
            if_pos (by rw [hrequest]; rfl), Section.bind_ok, store_ok h.block_lt]
          rfl
        rw [hrun]
        constructor
        · intro hs
          exact ⟨r, rfl, hanswer, (Except.ok.inj hs).symm⟩
        · rintro ⟨q, hq, -, rfl⟩
          cases hq
          rfl
      · have hrun : finish s w = .error .blocked := by
          simp only [finish, hr, hrequest]
          rw [waitWhile_blocked (mt hready.mp hanswer), Section.bind_error]
        rw [hrun]
        simp [hanswer]

/-- So a round that does not end is one that waits. -/
theorem Kept.round_error (h : Kept s) {e : Stop}
    (he : Barrier.step s .look = .error e ∨ Barrier.step s .finish = .error e) :
    e = .blocked := by
  rcases he with he | he
  · obtain he | ⟨w, hw, he⟩ := waiting_error he
    · exact he
    · obtain ⟨todo, hwait⟩ := h.during w hw
      by_cases hloop : w.task.isSome ∨ (0 < w.j ∧ w.j ≥ w.batchSize)
      · rw [Barrier.look, waitWhile_blocked hloop, Section.bind_error] at he
        cases he
        rfl
      · rw [Barrier.look, waitWhile_ok hloop, Section.bind_ok, load_ok h.block_lt] at he
        obtain ⟨r, rest, rfl⟩ := hwait.more (not_or.mp hloop).2
        rw [Section.bind_ok, hwait.slot] at he
        cases he
  · obtain he | ⟨w, hw, he⟩ := waiting_error he
    · exact he
    · cases hr : w.task with
      | none =>
          rw [Barrier.finish, hr] at he
          cases he
          rfl
      | some r =>
          obtain ⟨rest, request, hwait, -, hrequest, hready⟩ := h.at_task hw hr
          by_cases hanswer : (s.sessions.answer r).isSome
          · rw [(h.finish_iff hw).mpr ⟨r, hr, hanswer, rfl⟩] at he
            cases he
          · simp only [Barrier.finish, hr, hrequest] at he
            rw [waitWhile_blocked (mt hready.mp hanswer), Section.bind_error] at he
            cases he
            rfl

omit [DecidableEq τ] in
/-- After a round the rest of the batch is in the slots from the next index on. -/
theorem Waiting.next {w : Wait (Request ι)} {r : Request ι} {rest : List (Request ι)}
    (hwait : Waiting s w (r :: rest)) (hnodup : s.batch.Nodup) :
    Waiting (finished s w r) { w with j := w.j + 1, task := none, freed := w.freed ++ [r] }
      rest := by
  have hall : (r :: rest).Nodup := (hwait.perm.nodup_iff.mpr hnodup).of_append_right
  obtain ⟨hrest, -⟩ := List.nodup_cons.mp hall
  obtain ⟨free, hslots⟩ := hwait.slots
  refine {
    size := hwait.size
    pos := hwait.pos
    left := ?_
    perm := ?_
    slots := ⟨free, ?_⟩
    unfreed := fun q hq => ?_
    freed := fun q hq => ?_
    task := fun q hq => by cases hq }
  · have hleft := hwait.left
    rw [List.length_cons] at hleft
    show w.j + 1 + rest.length = w.batchSize
    omega
  · show (w.freed ++ [r] ++ rest).Perm s.batch
    rw [List.append_assoc]
    exact hwait.perm
  · -- no other slot of the rest holds `r`, so emptying its slot leaves them alone
    have hnew : some r ∉ rest.map some := fun hc => by
      obtain ⟨q, hq, heq⟩ := List.mem_map.mp hc
      cases heq
      exact hrest hq
    exact hslots.take hnew none
  · show q ∉ s.sessions.freed ++ [r]
    rw [List.mem_append, List.mem_singleton, not_or]
    refine ⟨hwait.unfreed q (List.mem_cons_of_mem r hq), ?_⟩
    rintro rfl
    exact hrest hq
  · show q ∈ s.sessions.freed ++ [r]
    rcases List.mem_append.mp hq with hq | hq
    · exact List.mem_append_left _ (hwait.freed q hq)
    · exact List.mem_append_right _ hq

omit [DecidableEq τ] in
theorem Kept.finish (h : Kept s) {w : Wait (Request ι)} (hw : s.wait = some w)
    (hs : finish s w = .ok s') : Kept s' := by
  obtain ⟨r, hr, hanswer, rfl⟩ := (h.finish_iff hw).mp hs
  obtain ⟨rest, request, hwait, hmem, -, -⟩ := h.at_task hw hr
  have hunfreed := hwait.unfreed r List.mem_cons_self
  refine {
    sound := sound_dispose h.sound (h.batch r hmem).1 hanswer hunfreed hwait.slot
    through := fun q hq i hi => h.through q hq i hi
    alone := fun _ => h.alone (.inr (by rw [hw]; rfl))
    block_lt := Nat.mod_lt _ (Nat.zero_lt_succ 1023)
    batch := h.batch
    nodup := h.nodup
    before := fun hc => by cases hc
    during := fun w' hw' => ?_ }
  cases hw'
  exact ⟨rest, hwait.next h.nodup⟩

/-- Every section keeps all of it, when the barriers begin in step. -/
theorem Kept.step (h : Kept s) {a : Action τ ι} (hin : InStep s a) (hs : step s a = .ok s') :
    Kept s' := by
  cases a with
  | session a =>
      obtain ⟨_, hbetween, hs⟩ := Section.bind_eq_ok.mp hs
      obtain ⟨_, hplan, hs⟩ := Section.bind_eq_ok.mp hs
      obtain ⟨sessions, hsessions, hs⟩ := Section.bind_eq_ok.mp hs
      cases hs
      exact h.session (of_waitWhile_ok hbetween) (not_not.mp (of_waitWhile_ok hplan)) hsessions
  | submit ref opData =>
      obtain ⟨_, hguard, hs⟩ := Section.bind_eq_ok.mp hs
      obtain ⟨hwait, hheld, hroom⟩ : s.wait = none ∧ s.sessions.runtime.held = [] ∧
          s.batch.length < bufferSize := by simpa using of_waitWhile_ok hguard
      exact h.submit hwait hheld hroom hs
  | wait =>
      obtain ⟨_, hguard, hs⟩ := Section.bind_eq_ok.mp hs
      obtain ⟨hwait, hbatch⟩ : s.wait = none ∧ s.batch ≠ [] := by
        simpa using of_waitWhile_ok hguard
      cases hs
      exact h.wait hwait hbatch hin
  | look =>
      obtain ⟨w, hw, hs⟩ := waiting_ok hs
      exact h.look hw hs
  | finish =>
      obtain ⟨w, hw, hs⟩ := waiting_ok hs
      exact h.finish hw hs
  | returns =>
      obtain ⟨w, hw, hs⟩ := waiting_ok hs
      obtain ⟨_, -, hs⟩ := Section.bind_eq_ok.mp hs
      cases hs
      exact .idle h.sound h.through h.block_lt (by simp [State.Busy])
  | reacquire =>
      obtain ⟨_, hguard, hs⟩ := Section.bind_eq_ok.mp hs
      cases hs
      exact .idle Sessions.Sound.initial (fun r hr => by cases hr) h.block_lt
        (not_or.mp (of_waitWhile_ok hguard)).1

theorem step_ok {a : Action τ ι} (h : (system τ ι).step s a = some s') : step s a = .ok s' :=
  Section.toOption_eq_some.mp h

theorem kept (h : (system τ ι).ReachableIf InStep s) : Kept s := by
  refine h.invariant ?_ fun s a s' hs hin hstep => hs.step hin (step_ok hstep)
  rintro _ rfl
  exact Kept.initial

end

/-! ### What a barrier does -/

/-- What a barrier does with the requests of its batch, whenever one is in progress. -/
structure Waited [DecidableEq τ] [DecidableEq ι] (s : State τ ι) : Prop where
  /-- it touches a request of its batch that is in memory, and nothing else -/
  own : ∀ w r, s.wait = some w → w.task = some r →
    r ∈ s.batch ∧ (s.sessions.task r).isSome ∧ r ∉ s.sessions.freed
  /-- what it frees is of its batch, and no request has been freed twice -/
  freed : ∀ w, s.wait = some w → (∀ r ∈ w.freed, r ∈ s.batch) ∧ s.sessions.freed.Nodup
  /-- a round of it waits for the answer, and does nothing undefined -/
  round : ∀ e, step s .look = .error e ∨ step s .finish = .error e → e = .blocked
  /-- when it returns, each request of the batch has been answered and freed once -/
  returned : ∀ s', step s .returns = .ok s' → ∃ w, s.wait = some w ∧ w.freed.Perm s.batch ∧
    ∀ r ∈ s.batch, (∃ out, s.sessions.answer r = some out ∧ s.sessions.output r = some out) ∧
      s'.sessions.freed.count r = 1

section
variable [DecidableEq τ] [DecidableEq ι] {s : State τ ι}

theorem Kept.returned (h : Kept s) {s' : State τ ι} (hs : Barrier.step s .returns = .ok s') :
    ∃ w, s.wait = some w ∧ w.freed.Perm s.batch ∧
      ∀ r ∈ s.batch, (∃ out, s.sessions.answer r = some out ∧ s.sessions.output r = some out) ∧
        s'.sessions.freed.count r = 1 := by
  obtain ⟨w, hw, hs⟩ := waiting_ok hs
  obtain ⟨_, hguard, hs⟩ := Section.bind_eq_ok.mp hs
  cases hs
  obtain ⟨todo, hwait⟩ := h.during w hw
  have hnil : todo = [] := by
    have hleft := hwait.left
    have hloop := of_waitWhile_ok hguard
    rw [← List.length_eq_zero_iff]
    omega
  subst hnil
  have hperm : w.freed.Perm s.batch := by simpa using hwait.perm
  refine ⟨w, hw, hperm, fun r hr => ?_⟩
  have hfreed := hwait.freed r (hperm.mem_iff.mpr hr)
  obtain ⟨out, hout⟩ := Option.isSome_iff_exists.mp (h.sound.memory.freed r hfreed)
  exact ⟨⟨out, hout, by rw [h.sound.memory.output_eq, hout]⟩,
    List.count_eq_one_of_mem h.sound.memory.nodup hfreed⟩

theorem Kept.waited (h : Kept s) : Waited s where
  own w r hw hr := by
    obtain ⟨rest, request, hwait, hmem, hrequest, -⟩ := h.at_task hw hr
    exact ⟨hmem, by rw [hrequest]; rfl, hwait.unfreed r List.mem_cons_self⟩
  freed w hw := by
    obtain ⟨todo, hwait⟩ := h.during w hw
    exact ⟨fun r hr => hwait.perm.mem_iff.mp (List.mem_append_left _ hr), h.sound.memory.nodup⟩
  round _ he := h.round_error he
  returned _ hs := h.returned hs

/--
**A barrier that is in step waits for its batch.**

Whatever batches, sessions and acquisitions come one after the other: as long as every
barrier begins at the slot of the first request of its batch, or the batch fills the ring,
each one reads and frees the requests of its batch and no others, and when it returns all
of them have been answered, and freed once.
-/
theorem barrier_waits (h : (system τ ι).ReachableIf InStep s) : Waited s := (kept h).waited

end

instance [DecidableEq τ] [DecidableEq ι] (s : State τ ι) (a : Action τ ι) :
    Decidable (InStep s a) := by
  unfold InStep
  split <;> infer_instance

/-- A request is submitted, dispatched and answered, and its barrier goes round once. -/
def oneRequest (r : ℕ) : List (Action ℕ ℕ) :=
  [.submit r 0, .session (.background (.read 48)), .session (.background .dispatch),
    .session (.callback ⟨none, r⟩ [3]), .wait, .look, .finish]

/-- Two batches, and the second of its barriers about to return. -/
theorem barrier_waits_two : ∃ s, (system ℕ ℕ).runIf InStep State.initial
    (oneRequest 5 ++ .returns :: oneRequest 6) = some s ∧ Waited s := by
  obtain ⟨s, hs⟩ := Option.isSome_iff_exists.mp
    (show ((system ℕ ℕ).runIf InStep State.initial
      (oneRequest 5 ++ .returns :: oneRequest 6)).isSome by decide +kernel)
  exact ⟨s, hs, barrier_waits (.runIf (.init rfl) hs)⟩

/-- A batch, and another after a new acquisition: the second barrier finds an empty slot. -/
def acquiredAnew : List (Action ℕ ℕ) :=
  List.flatten [oneRequest 5, [.returns, .reacquire, .submit 6 0, .wait, .look]]

/-- A session with one request, and a batch after it. -/
def afterSession : List (Action ℕ ℕ) :=
  [.session (.acquire 1 7), .session (.call 1 0 10 .all), .session (.background .select),
    .session (.background .extract), .session (.background .submitList),
    .session (.background (.read 48)), .session (.background .dispatch),
    .session (.callback ⟨some 0, 10⟩ [3]), .session (.release 1 0 1), .session (.look 1 0),
    .session (.finish 1 0), .session (.giveBack 1 0), .submit 5 0, .wait, .look]

/-- What is seen of a barrier. -/
structure Seen where
  batch : List (Request ℕ)
  answers : List (Option (List ℕ))
  task : Option (Request ℕ)
  /-- it can return -/
  returns : Bool
  /-- where a round of it stops -/
  stop : Option Stop
  deriving DecidableEq

def seen (s : State ℕ ℕ) : Seen where
  batch := s.batch
  answers := s.batch.map s.sessions.answer
  task := s.wait.bind Wait.task
  returns := (step s .returns).isOk
  stop := match step s .finish with
    | .error e => some e
    | .ok _ => none

/-- A barrier that can return has an answer to each of its batch. -/
theorem Waited.answered {s : State ℕ ℕ} (h : Waited s) (hreturn : (seen s).returns) :
    none ∉ (seen s).answers := by
  intro hc
  cases hreturns : step s .returns with
  | error e =>
      rw [seen, hreturns] at hreturn
      cases hreturn
  | ok s' =>
      obtain ⟨-, -, -, hall⟩ := h.returned s' hreturns
      obtain ⟨r, hr, hnone⟩ := List.mem_map.mp hc
      obtain ⟨⟨out, hout, -⟩, -⟩ := hall r hr
      rw [hnone] at hout
      cases hout

/-- A round that stops waits. -/
theorem Waited.stop {s : State ℕ ℕ} (h : Waited s) {e : Stop} (hstop : (seen s).stop = some e) :
    e = .blocked := by
  cases hfinish : step s .finish with
  | ok s' =>
      rw [seen, hfinish] at hstop
      cases hstop
  | error e' =>
      rw [seen, hfinish] at hstop
      cases hstop
      exact h.round e (.inr hfinish)

/-- After a new acquisition the barrier can return, and its request has no answer.  After a session
it waits for a request of the session, which is not in memory any more. -/
theorem not_barrier_waits_one :
    (∃ s : State ℕ ℕ, (system ℕ ℕ).Reachable s ∧
      seen s = ⟨[⟨none, 6⟩], [none], none, true, some .blocked⟩ ∧ ¬ Waited s) ∧
    ∃ s : State ℕ ℕ, (system ℕ ℕ).Reachable s ∧
      seen s = ⟨[⟨none, 5⟩], [none], some ⟨some 0, 10⟩, false, some (.undefined "use after free")⟩ ∧
        ¬ Waited s := by
  have hanew : ((system ℕ ℕ).run State.initial acquiredAnew).map seen =
      some ⟨[⟨none, 6⟩], [none], none, true, some .blocked⟩ := by decide +kernel
  have hsession : ((system ℕ ℕ).run State.initial afterSession).map seen =
      some ⟨[⟨none, 5⟩], [none], some ⟨some 0, 10⟩, false,
        some (.undefined "use after free")⟩ := by decide +kernel
  obtain ⟨s, hs, hseen⟩ := TransitionSystem.reachable_of_map_run (system ℕ ℕ) rfl hanew
  obtain ⟨u, hu, hround⟩ := TransitionSystem.reachable_of_map_run (system ℕ ℕ) rfl hsession
  refine ⟨⟨s, hs, hseen, fun h => ?_⟩, u, hu, hround, fun h => ?_⟩
  · have hanswered := h.answered (by rw [hseen])
    rw [hseen] at hanswered
    exact hanswered (List.mem_singleton_self _)
  · cases h.stop (by rw [hround])

end Ipcl.HeQat.Barrier
