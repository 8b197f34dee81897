/-
What is offered to the device, and what it has not answered.

Requests that have left the buffers keep their order until they are handed over, one with each
offer.  From the list of those handed over the counters of `start_instances` are read off: an
offer adds at most one to what is pending, an answer takes one away, and nothing else changes it.
So a number of requests that the device had room for stays one it has room for until the
processing thread has read them.
-/
import Ipcl.Proofs.HeQat.Wakeups

namespace Ipcl.HeQat.Wakeups

open Sessions (Sound Traced)

variable {τ ι : Type}

/-! ### The order in which requests leave the buffers -/

section
variable {ρ : Type} {l : TaskRequestList ρ} {i : ℕ}

theorem from_cons {r : ρ} (hi : i < l.count) (hr : l.request i = some r) :
    l.from i = r :: l.from (i + 1) := by
  have hcount : l.count - i = l.count - (i + 1) + 1 := by omega
  rw [TaskRequestList.from, hcount, List.range_succ_eq_map, List.filterMap_cons, Nat.add_zero, hr,
    List.filterMap_map, TaskRequestList.from]
  refine congrArg (r :: ·) (List.filterMap_congr fun j _ => ?_)
  show l.request (i + (j + 1)) = l.request (i + 1 + j)
  rw [Nat.add_right_comm, Nat.add_assoc]

/-- The places before are of no concern. -/
theorem from_update (x : Option ρ) :
    ({ l with request := Function.update l.request i x } : TaskRequestList ρ).from (i + 1)
      = l.from (i + 1) := by
  refine List.filterMap_congr fun j _ => ?_
  exact Function.update_of_ne (by omega) _ _

end

variable [DecidableEq τ] [DecidableEq ι]

section
variable {s s' : Sessions.State τ ι} {a : Call τ ι}

omit [DecidableEq τ] in
/-- The scheduler's list is empty where it begins a pull. -/
theorem hand_nil (h : Kept s) (hat : s.runtime.scheduler ≠ .submit) :
    s.runtime.schedulerList.from 0 = [] := by
  obtain ⟨t, -, hR⟩ := h.sound.traced
  have hok := hR.scheduler
  have hhand : t.hand = [] := by
    cases hs : s.runtime.scheduler with
    | submit => exact absurd hs hat
    | select =>
        rw [hs] at hok
        exact hok
    | extract i =>
        rw [hs] at hok
        exact hok.1
  rw [hR.hand.remaining.from_eq, hhand]

/-- Requests that have left the buffers keep their order, and `n` more are handed over. -/
structure Onward (s s' : Runtime.State τ ι) (n : ℕ) : Prop where
  ahead : s.ahead <+: s'.ahead
  dispatched : ∃ more, s'.dispatched = s.dispatched ++ more ∧ more.length = n

omit [DecidableEq τ] [DecidableEq ι] in
theorem Onward.length {s s' : Runtime.State τ ι} {n : ℕ} (h : Onward s s' n) :
    s'.dispatched.length = s.dispatched.length + n := by
  obtain ⟨more, hmore, rfl⟩ := h.dispatched
  rw [hmore, List.length_append]

omit [DecidableEq τ] [DecidableEq ι] in
theorem Onward.same {s s' : Runtime.State τ ι} (hahead : s'.ahead = s.ahead)
    (hdispatched : s'.dispatched = s.dispatched) : Onward s s' 0 :=
  ⟨hahead ▸ List.prefix_refl _, [], by rw [hdispatched, List.append_nil], rfl⟩

theorem onward_background (h : Kept s) {b : Sessions.Background} {runtime : Runtime.State τ ι}
    (hr : Runtime.step s.runtime b.action = .ok runtime) :
    Onward s.runtime runtime (if b = .dispatch then 1 else 0) := by
  obtain ⟨t, -, hR⟩ := h.sound.traced
  cases b with
  | select =>
      obtain ⟨_, hat, hr⟩ := Section.bind_eq_ok.mp hr
      obtain ⟨found, -, hr⟩ := Section.bind_eq_ok.mp hr
      cases hr
      have hhand := hand_nil h fun hc => by
        rw [not_not.mp (of_waitWhile_ok hat)] at hc
        cases hc
      refine ⟨?_, [], (List.append_nil _).symm, rfl⟩
      rw [Runtime.State.ahead, hhand, List.append_nil]
      exact List.prefix_append _ _
  | extract =>
      cases hat : s.runtime.scheduler with
      | select => simp only [Sessions.Background.action, Runtime.step, hat, reduceCtorEq] at hr
      | submit => simp only [Sessions.Background.action, Runtime.step, hat, reduceCtorEq] at hr
      | extract i =>
          simp only [Sessions.Background.action, Runtime.step, hat] at hr
          obtain ⟨b, -, hr⟩ := Section.bind_eq_ok.mp hr
          obtain ⟨⟨l', b'⟩, -, hr⟩ := Section.bind_eq_ok.mp hr
          cases hr
          have hhand := hand_nil h fun hc => by
            rw [hat] at hc
            cases hc
          refine ⟨?_, [], (List.append_nil _).symm, rfl⟩
          rw [Runtime.State.ahead, hhand, List.append_nil]
          exact List.prefix_append _ _
  | submitList =>
      obtain ⟨_, -, hr⟩ := Section.bind_eq_ok.mp hr
      obtain ⟨⟨b', l'⟩, hsub, hr⟩ := Section.bind_eq_ok.mp hr
      cases hr
      rcases submitRequestList_spec hR.trunk hR.hand with hc | ⟨b, l, hrun, hb, hl⟩
      · rw [hc] at hsub
        cases hsub
      rw [hrun] at hsub
      cases hsub
      refine ⟨?_, [], (List.append_nil _).symm, rfl⟩
      rw [Runtime.State.ahead, Runtime.State.ahead, hR.trunk.unread, hR.hand.remaining.from_eq]
      simp only [hb.unread, hl.remaining.from_eq, List.append_nil, List.append_assoc]
      exact List.prefix_refl _
  | read maxRequests =>
      obtain ⟨_, hidle, hr⟩ := Section.bind_eq_ok.mp hr
      obtain ⟨⟨l', b'⟩, hread, hr⟩ := Section.bind_eq_ok.mp hr
      cases hr
      have hzero := not_not.mp (of_waitWhile_ok hidle)
      have hbatch : s.runtime.processingList.from s.runtime.processed = [] := by
        rw [TaskRequestList.from, hzero, Nat.zero_sub]
        rfl
      rcases readRequestList_spec hR.trunk s.runtime.processingList maxRequests with
        hc | ⟨l, b, hrun, hl, hb⟩
      · rw [hc] at hread
        cases hread
      rw [hrun] at hread
      cases hread
      refine ⟨?_, [], (List.append_nil _).symm, rfl⟩
      rw [Runtime.State.ahead, Runtime.State.ahead, hbatch, hR.trunk.unread]
      simp only [hl.remaining.from_eq, hb.unread, List.append_nil, List.append_assoc,
        List.take_append_drop]
      exact List.prefix_refl _
  | dispatch =>
      obtain ⟨_, hwait, hr⟩ := Section.bind_eq_ok.mp hr
      have hlt := Nat.lt_of_not_le (of_waitWhile_ok hwait)
      obtain ⟨r, hload, hr⟩ := Section.bind_eq_ok.mp hr
      cases r with
      | none => cases hr
      | some r =>
          obtain ⟨request, hstore, hr⟩ := Section.bind_eq_ok.mp hr
          have hfrom := from_cons hlt (load_eq_ok hload).symm
          split at hr
          · next hlast =>
              cases hr
              have hempty : s.runtime.processingList.from (s.runtime.processed + 1) = [] := by
                rw [TaskRequestList.from, hlast, Nat.sub_self]
                rfl
              refine ⟨?_, [r], rfl, rfl⟩
              rw [Runtime.State.ahead, Runtime.State.ahead, hfrom, hempty]
              simp [TaskRequestList.from]
          · cases hr
            refine ⟨?_, [r], rfl, rfl⟩
            rw [Runtime.State.ahead, Runtime.State.ahead, hfrom, store_eq_ok hstore]
            simp only [from_update, List.append_assoc, List.cons_append, List.nil_append]
            exact List.prefix_refl _

def isDirect : Call τ ι → Bool
  | .direct _ _ => true
  | _ => false

/-- Whether the call hands a request to the device. -/
def handsOver : Call τ ι → ℕ
  | .session (.background .dispatch) => 1
  | _ => 0

/-- That is so for every call but a direct submission, which goes past the scheduler. -/
theorem onward (h : Kept s) (hs : step s a = .ok s') (hdirect : isDirect a = false) :
    Onward s.runtime s'.runtime (handsOver a) := by
  obtain ⟨_, -, hs⟩ := Section.bind_eq_ok.mp hs
  cases a with
  | direct ref opData => cases hdirect
  | leave =>
      obtain ⟨runtime, hr, hs⟩ := Section.bind_eq_ok.mp hs
      cases hs
      exact onward_background h (b := .submitList) hr
  | session a =>
      cases a with
      | acquire t id =>
          obtain ⟨runtime, hr, hs⟩ := Section.bind_eq_ok.mp hs
          cases hs
          obtain ⟨id, o, -, rfl⟩ := Sessions.acquire_ok h.sound.traced.owned hr
          exact .same rfl rfl
      | call t i ref b =>
          obtain ⟨-, -, ⟨-, rfl⟩ | ⟨request, runtime, -, hr, rfl⟩⟩ := Sessions.call_ok hs
          · exact .same rfl rfl
          · obtain ⟨-, rfl⟩ := Sessions.submit_ok hr
            exact .same rfl rfl
      | background b =>
          obtain ⟨runtime, hr, hs⟩ := Section.bind_eq_ok.mp hs
          cases hs
          have honward := onward_background h hr
          cases b with
          | dispatch => exact honward
          | _ => exact honward
      | callback r out =>
          obtain ⟨-, -, request, -, rfl⟩ := Sessions.callback_ok hs
          exact .same rfl rfl
      | release t i batchSize =>
          obtain ⟨-, -, rfl⟩ := Sessions.enter_ok hs
          exact .same rfl rfl
      | look t i =>
          obtain ⟨-, w, -, -, -, rfl⟩ := Sessions.look_ok hs
          exact .same rfl rfl
      | finish t i =>
          obtain ⟨-, w, r, -, -, -, rfl⟩ := h.sound.finish_ok hs
          exact .same rfl rfl
      | giveBack t i =>
          obtain ⟨-, w, o, -, -, -, rfl⟩ := h.sound.giveBack_effect hs
          exact .same rfl rfl

/-! ### What the device has not answered -/

/-- Every call adds to the requests that have been handed over what it hands over. -/
theorem dispatched_step (h : Kept s) (hs : step s a = .ok s') :
    ∃ more, s'.runtime.dispatched = s.runtime.dispatched ++ more ∧ more.length = handsOver a := by
  by_cases hdirect : isDirect a = false
  · exact (onward h hs hdirect).dispatched
  obtain ⟨_, -, hs⟩ := Section.bind_eq_ok.mp hs
  cases a with
  | session a => exact absurd rfl hdirect
  | leave => exact absurd rfl hdirect
  | direct ref opData =>
      obtain ⟨runtime, hr, hs⟩ := Section.bind_eq_ok.mp hs
      cases hs
      obtain ⟨-, rfl⟩ := Barrier.submitDirect_ok hr
      exact ⟨[], (List.append_nil _).symm, rfl⟩

omit [DecidableEq τ] [DecidableEq ι] in
theorem of_device {r : Request ι} (ha : a.thread = .device r) :
    ∃ out, a = .session (.callback r out) := by
  cases a with
  | session a =>
      cases a with
      | callback q out =>
          cases ha
          exact ⟨out, rfl⟩
      | background a => cases a <;> cases ha
      | _ => cases ha
  | _ => cases ha

omit [DecidableEq τ] [DecidableEq ι] in
theorem handsOver_eq_zero (ha : a.thread ≠ .processing) : handsOver a = 0 := by
  cases a with
  | session a =>
      cases a with
      | background a =>
          cases a with
          | dispatch => exact absurd rfl ha
          | _ => rfl
      | _ => rfl
  | _ => rfl

omit [DecidableEq τ] [DecidableEq ι] in
theorem handsOver_le_one (a : Call τ ι) : handsOver a ≤ 1 := by
  unfold handsOver
  split <;> omega

variable {status : Request ι → CpaStatus}

/-- An answer takes one of the pending requests away. -/
theorem pending_callback {r : Request ι} {out : List ℕ}
    (hs : step s (.session (.callback r out)) = .ok s') (hstatus : status r = .success) :
    pending status s' < pending status s := by
  obtain ⟨_, -, hs⟩ := Section.bind_eq_ok.mp hs
  obtain ⟨hmem, hnone, request, -, rfl⟩ := Sessions.callback_ok hs
  obtain ⟨before, after, hsplit⟩ := List.append_of_mem hmem
  have hle : ∀ l : List (Request ι),
      l.countP (fun q => status q = .success ∧ Function.update s.answer r (some out) q = none)
        ≤ l.countP fun q => status q = .success ∧ s.answer q = none := by
    intro l
    refine List.countP_mono_left fun q _ hq => ?_
    simp only [decide_eq_true_eq] at hq ⊢
    by_cases hqr : q = r
    · rw [hqr, Function.update_self] at hq
      cases hq.2
    · rwa [Function.update_of_ne hqr] at hq
  show (s.runtime.dispatched.countP fun q =>
    status q = .success ∧ Function.update s.answer r (some out) q = none) < _
  rw [pending, hsplit, List.countP_append, List.countP_append, List.countP_cons_of_neg (by simp),
    List.countP_cons_of_pos (by simp [hstatus, hnone])]
  have hbefore := hle before
  have hafter := hle after
  omega

/-- What a call does to the number of pending requests. -/
theorem pending_cases (h : Kept s) (hs : step s a = .ok s') (hpaced : Paced status s a) :
    (∃ r, a.thread = .device r) ∧ pending status s' < pending status s ∨
      (∀ r, a.thread ≠ .device r) ∧ pending status s ≤ pending status s' ∧
        pending status s' ≤ pending status s + handsOver a := by
  by_cases hdevice : ∃ r, a.thread = .device r
  · left
    obtain ⟨r, hr⟩ := hdevice
    obtain ⟨out, rfl⟩ := of_device hr
    exact ⟨⟨r, hr⟩, pending_callback hs hpaced⟩
  · right
    push Not at hdevice
    obtain ⟨more, hmore, hlen⟩ := dispatched_step h hs
    have hanswer : s'.answer = s.answer := funext fun r =>
      answer_elsewhere h hs fun out hc => hdevice r (by rw [hc]; rfl)
    have hcount : pending status s' = pending status s
        + more.countP fun r => status r = .success ∧ s.answer r = none := by
      rw [pending, pending, hmore, hanswer, List.countP_append]
    have hle := List.countP_le_length (p := fun r => status r = .success ∧ s.answer r = none)
      (l := more)
    exact ⟨hdevice, by omega, by omega⟩

omit [DecidableEq τ] [DecidableEq ι] in
/-- The device has something to answer. -/
theorem exists_pending (hpos : 0 < pending status s) :
    ∃ r ∈ s.runtime.dispatched, status r = .success ∧ s.answer r = none := by
  obtain ⟨r, hr, hpending⟩ := List.countP_pos_iff.mp hpos
  exact ⟨r, hr, of_decide_eq_true hpending⟩

/-- It can give the answer. -/
theorem callback_run (h : Kept s) {r : Request ι} (hr : r ∈ s.runtime.dispatched)
    (hanswer : s.answer r = none) (out : List ℕ) :
    ∃ s', (monitor τ ι).sys.step s (.session (.callback r out)) = some s' := by
  have hfreed : r ∉ s.freed := fun hc => by
    have hsome := h.sound.memory.freed r hc
    rw [hanswer] at hsome
    cases hsome
  obtain ⟨request, hrequest⟩ := Option.isSome_iff_exists.mp
    ((h.sound.memory.allocated r).mpr ⟨h.sound.traced.mem_submitted hr, hfreed⟩)
  exact ⟨_, step_run trivial (Sessions.callback_run hr hanswer hrequest out)⟩

omit [DecidableEq τ] [DecidableEq ι] in
/-- There is room for `restart_threshold` requests, or the device has something to answer. -/
theorem available_or_pending (status : Request ι → CpaStatus) (s : Sessions.State τ ι) :
    Throttle.restartThreshold.toNat ≤ available status s ∨
    ∃ r ∈ s.runtime.dispatched, status r = .success ∧ s.answer r = none := by
  have hthreshold := Throttle.toNat_restartThreshold
  have hmax := Throttle.toNat_maxPending
  by_cases hpos : 0 < pending status s
  · exact Or.inr (exists_pending hpos)
  · left
    rw [available]
    omega

/-! ### In step with the device -/

theorem exited_step (h : Kept s) (hs : step s a = .ok s') (ha : a.thread ≠ .processing) :
    Exited status s' ↔ Exited status s := by
  obtain ⟨more, hmore, hlen⟩ := dispatched_step h hs
  rw [handsOver_eq_zero ha, List.length_eq_zero_iff] at hlen
  rw [Exited, Exited, hmore, hlen, List.append_nil]

/-- The other threads do not stand in the way of a thread that is in step. -/
theorem paced_step (h : Kept s) {b : Call τ ι} (hs : step s b = .ok s') (hb : Paced status s b)
    (hne : b.thread ≠ a.thread) (ha : Paced status s a) : Paced status s' a := by
  cases a with
  | session a =>
      cases a with
      | background a =>
          cases a with
          | read maxRequests =>
              obtain ⟨hexited, hmax⟩ := ha
              have hle : pending status s' ≤ pending status s := by
                rcases pending_cases h hs hb with ⟨-, hlt⟩ | ⟨-, -, hle⟩
                · exact hlt.le
                · rwa [handsOver_eq_zero hne, Nat.add_zero] at hle
              refine ⟨mt (exited_step h hs hne).mp hexited, hmax.trans ?_⟩
              rw [available, available]
              omega
          | dispatch => exact mt (exited_step h hs hne).mp ha
          | _ => trivial
      | callback r out => exact ha
      | _ => trivial
  | _ => trivial

theorem paced_init : (pacedMonitor (τ := τ) status).system.init State.initial := ⟨rfl, rfl, rfl⟩

/-- Every thread is in step. -/
theorem paced {s : State τ ι} (h : (pacedMonitor status).system.Reachable s) :
    ∀ a ∈ s.calls, Paced status s.base a := by
  refine Monitor.calls_at (M := pacedMonitor status)
    (fun _ _ _ hat => (Monitor.restrict_at.mp hat).1)
    (fun _ _ _ _ hreach hs hne ha => ?_) h
  obtain ⟨hb, hs⟩ := TransitionSystem.restrict_step.mp hs
  exact paced_step (kept (TransitionSystem.reachable_of_restrict hreach)) (step_ok hs) hb hne ha

theorem paced_run (hpaced : Paced status s a)
    (hs : ∃ s', (monitor τ ι).sys.step s a = some s') :
    ∃ s', (pacedSystem status).step s a = some s' := by
  obtain ⟨s', hs⟩ := hs
  exact ⟨s', TransitionSystem.restrict_step.mpr ⟨hpaced, hs⟩⟩

end

end Ipcl.HeQat.Wakeups
