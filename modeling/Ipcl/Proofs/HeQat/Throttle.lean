/-
The bound on what the device has to do.

What is in the device, and what the loop may still put there before it looks at the
counters again, are at most `max_pending` together.  At the looks the first is exactly the
difference of the counters, and the loop takes on what is left; between them an offer moves
a request from the second to the first, and an answer lowers the first.

The counters agree with the device except between an offer and its increment: there one
request is in the device, or has been answered, that is not counted yet.
-/
import Ipcl.HeQat.Throttle

namespace Ipcl.HeQat.Throttle

variable {τ ι : Type}

/-! ### Counters -/

/-- The difference of two counters that are not too far apart, wherever they are. -/
theorem ofNat_sub_ofNat {a b : ℕ} (hle : a ≤ b) (hlt : b - a < 2 ^ 64) :
    (UInt64.ofNat b - UInt64.ofNat a).toNat = b - a := by
  obtain ⟨d, rfl⟩ := Nat.exists_eq_add_of_le hle
  rw [Nat.add_sub_cancel_left] at hlt ⊢
  rw [UInt64.ofNat_add, UInt64.add_comm, UInt64.add_sub_cancel]
  exact UInt64.toNat_ofNat_of_lt' hlt

theorem toNat_maxPending : maxPending.toNat = 96 := by decide

theorem toNat_restartThreshold : restartThreshold.toNat = 48 := by decide

/-- What is available is what is left of the bound. -/
theorem toNat_available (s : State τ ι) : s.available.toNat = 96 - s.pending.toNat := by
  have hmax := toNat_maxPending
  unfold State.available
  split
  · next hlt =>
      rw [UInt64.lt_iff_toNat_lt] at hlt
      rw [UInt64.toNat_sub_of_le _ _ (UInt64.le_of_lt (UInt64.lt_iff_toNat_lt.mpr hlt))]
      omega
  · next hge =>
      rw [UInt64.not_lt, UInt64.le_iff_toNat_le] at hge
      rw [UInt64.sub_self]
      simp only [UInt64.toNat_zero]
      omega

/-! ### The list of the processing thread -/

/-- The requests read and not offered yet. -/
def remaining (runtime : Runtime.State τ ι) : ℕ :=
  runtime.processingList.count - runtime.processed

variable [DecidableEq τ] [DecidableEq ι]

/-- The other threads leave the list alone. -/
theorem other_ok {runtime runtime' : Runtime.State τ ι} {a : Other τ ι}
    (h : Runtime.step runtime a.action = .ok runtime') :
    remaining runtime' = remaining runtime := by
  cases a with
  | acquire t bufferId =>
      obtain ⟨o, -, h⟩ := Section.bind_eq_ok.mp h
      cases h
      rfl
  | release t bufferId =>
      obtain ⟨-, -, h⟩ := Section.bind_eq_ok.mp h
      obtain ⟨o, -, h⟩ := Section.bind_eq_ok.mp h
      cases h
      rfl
  | submit t bufferId ref =>
      obtain ⟨-, -, h⟩ := Section.bind_eq_ok.mp h
      obtain ⟨b, -, h⟩ := Section.bind_eq_ok.mp h
      obtain ⟨b', -, h⟩ := Section.bind_eq_ok.mp h
      cases h
      rfl
  | submitDirect ref =>
      obtain ⟨-, -, h⟩ := Section.bind_eq_ok.mp h
      obtain ⟨b, -, h⟩ := Section.bind_eq_ok.mp h
      cases h
      rfl
  | select =>
      obtain ⟨-, -, h⟩ := Section.bind_eq_ok.mp h
      obtain ⟨index, -, h⟩ := Section.bind_eq_ok.mp h
      cases h
      rfl
  | extract =>
      cases hat : runtime.scheduler with
      | select => simp only [Other.action, Runtime.step, hat, reduceCtorEq] at h
      | submit => simp only [Other.action, Runtime.step, hat, reduceCtorEq] at h
      | extract index =>
          simp only [Other.action, Runtime.step, hat] at h
          obtain ⟨b, -, h⟩ := Section.bind_eq_ok.mp h
          obtain ⟨l, -, h⟩ := Section.bind_eq_ok.mp h
          cases h
          rfl
  | submitList =>
      obtain ⟨-, -, h⟩ := Section.bind_eq_ok.mp h
      obtain ⟨b, -, h⟩ := Section.bind_eq_ok.mp h
      cases h
      rfl

/-- `read_request_list` reads no more than it is asked to. -/
theorem readRequestList_count {ρ : Type} {l l' : TaskRequestList ρ} {b b' : RequestBuffer ρ}
    {maxRequests : ℕ} (h : readRequestList l b maxRequests = .ok (l', b')) :
    l'.count ≤ maxRequests := by
  obtain ⟨-, -, h⟩ := Section.bind_eq_ok.mp h
  obtain ⟨-, -, h⟩ := Section.bind_eq_ok.mp h
  obtain ⟨-, -, h⟩ := Section.bind_eq_ok.mp h
  obtain ⟨lb, -, h⟩ := Section.bind_eq_ok.mp h
  cases h
  show (if b.count < maxRequests then b.count else maxRequests) ≤ maxRequests
  split <;> omega

theorem read_ok {runtime runtime' : Runtime.State τ ι} {maxRequests : ℕ}
    (h : Runtime.step runtime (.read maxRequests) = .ok runtime') :
    remaining runtime' ≤ maxRequests := by
  obtain ⟨-, -, h⟩ := Section.bind_eq_ok.mp h
  obtain ⟨⟨l, b⟩, hread, h⟩ := Section.bind_eq_ok.mp h
  cases h
  exact readRequestList_count hread

/-- One request is offered, and no more than one. -/
theorem dispatch_ok {runtime runtime' : Runtime.State τ ι}
    (h : Runtime.step runtime .dispatch = .ok runtime') :
    remaining runtime' + 1 = remaining runtime := by
  obtain ⟨_, hwait, h⟩ := Section.bind_eq_ok.mp h
  have hlt := of_waitWhile_ok hwait
  obtain ⟨r, -, h⟩ := Section.bind_eq_ok.mp h
  cases r with
  | none => cases h
  | some r =>
      obtain ⟨request, -, h⟩ := Section.bind_eq_ok.mp h
      split at h
      · next hlast =>
          cases h
          show 0 - 0 + 1 = runtime.processingList.count - runtime.processed
          omega
      · cases h
        show runtime.processingList.count - (runtime.processed + 1) + 1
          = runtime.processingList.count - runtime.processed
        omega

/-- What an offer leads to. -/
theorem offload_ok {s s' : State τ ι} {status : CpaStatus} (h : offload s status = .ok s') :
    ∃ runtime, Runtime.step s.runtime .dispatch = .ok runtime ∧
      (s' = { s with runtime := runtime, pc := .exited } ∨
        (∃ r, s' = { s with runtime := runtime, pc := .accepted, inDevice := r :: s.inDevice }) ∨
        s' = { s with runtime := runtime, pc := afterOffload runtime }) := by
  obtain ⟨r, -, h⟩ := Section.bind_eq_ok.mp h
  obtain ⟨runtime, hruntime, h⟩ := Section.bind_eq_ok.mp h
  refine ⟨runtime, hruntime, ?_⟩
  split at h
  · cases h
  · cases h
    exact .inl rfl
  · cases h
    exact .inr (.inl ⟨_, rfl⟩)
  · cases h
    exact .inr (.inr rfl)

/-! ### The invariant -/

omit [DecidableEq τ] [DecidableEq ι]

/-- The accepted request that is not counted yet, if there is one. -/
def uncounted : Pc → ℕ
  | .accepted => 1
  | _ => 0

/-- What the loop may still put into the device before it looks at the counters again. -/
def planned (s : State τ ι) : ℕ :=
  match s.pc with
  | .read maxRequests => maxRequests.toNat
  | .offload => remaining s.runtime
  | .accepted => remaining s.runtime
  | _ => 0

structure Balanced (s : State τ ι) : Prop where
  requestCount : s.requestCount = UInt64.ofNat s.requests
  responseCount : s.responseCount = UInt64.ofNat s.responses
  balance : s.requests + uncounted s.pc = s.responses + s.inDevice.length
  bound : s.inDevice.length + planned s ≤ 96
  asked : ∀ maxRequests, s.pc = .read maxRequests → 48 ≤ maxRequests.toNat

theorem Balanced.initial : Balanced (State.initial : State τ ι) where
  requestCount := rfl
  responseCount := rfl
  balance := rfl
  bound := Nat.zero_le _
  asked maxRequests h := by cases h

/-- Where `pending` is computed it is what is in the device. -/
theorem Balanced.pending_eq {s : State τ ι} (h : Balanced s) (hpc : s.pc = .compute) :
    s.responses ≤ s.requests ∧ s.pending.toNat = s.requests - s.responses ∧
      s.pending.toNat = s.inDevice.length := by
  have hbalance := h.balance
  have hbound := h.bound
  simp only [hpc, uncounted] at hbalance
  have hle : s.responses ≤ s.requests := by omega
  have hpending : s.pending.toNat = s.requests - s.responses := by
    rw [State.pending, h.requestCount, h.responseCount]
    exact ofNat_sub_ofNat hle (by omega)
  exact ⟨hle, hpending, by omega⟩

theorem Balanced.available_eq {s : State τ ι} (h : Balanced s) (hpc : s.pc = .compute) :
    s.available.toNat = 96 - s.inDevice.length := by
  rw [toNat_available, (h.pending_eq hpc).2.2]

/-- After an offer the rest of the batch is planned, or nothing. -/
theorem planned_afterOffload {s : State τ ι} (hpc : s.pc = afterOffload s.runtime) :
    planned s ≤ remaining s.runtime := by
  unfold planned
  rw [hpc, afterOffload]
  split_ifs <;> simp

@[simp] theorem uncounted_afterOffload (runtime : Runtime.State τ ι) :
    uncounted (afterOffload runtime) = 0 := by
  unfold afterOffload
  split_ifs <;> rfl

theorem afterOffload_ne_read (runtime : Runtime.State τ ι) (maxRequests : UInt32) :
    afterOffload runtime ≠ .read maxRequests := by
  unfold afterOffload
  split_ifs <;> simp

theorem Balanced.test {s : State τ ι} (h : Balanced s) (hpc : s.pc = .test) (running : Bool) :
    Balanced { s with pc := if running then .compute else .exited } := by
  have hbalance := h.balance
  have hbound := h.bound
  simp only [planned, hpc, uncounted] at hbalance hbound
  cases running with
  | true => exact { h with balance := hbalance, bound := hbound, asked := by simp }
  | false => exact { h with balance := hbalance, bound := hbound, asked := by simp }

/-- The loop reads as much as fits, once there is room for half of the bound. -/
theorem Balanced.compute {s : State τ ι} (h : Balanced s) (hpc : s.pc = .compute)
    (hroom : ¬ s.available < restartThreshold) :
    Balanced { s with pc := .read s.available.toUInt32 } := by
  have hbalance := h.balance
  have hbound := h.bound
  have havailable := h.available_eq hpc
  have hsmall : s.available.toUInt32.toNat = s.available.toNat := by
    rw [UInt64.toNat_toUInt32]
    omega
  simp only [planned, hpc, uncounted] at hbalance hbound
  refine { h with balance := hbalance, bound := ?_, asked := ?_ }
  · simp only [planned, hsmall, havailable]
    omega
  · intro maxRequests hread
    cases hread
    rw [UInt64.not_lt, UInt64.le_iff_toNat_le, toNat_restartThreshold] at hroom
    rw [hsmall]
    exact hroom

theorem Balanced.count {s : State τ ι} (h : Balanced s) (hpc : s.pc = .accepted) :
    Balanced { s with
      requestCount := s.requestCount + 1
      requests := s.requests + 1
      pc := afterOffload s.runtime } := by
  have hbalance := h.balance
  have hbound := h.bound
  simp only [planned, hpc, uncounted] at hbalance hbound
  refine { h with requestCount := ?_, balance := ?_, bound := ?_, asked := ?_ }
  · simp only [h.requestCount, UInt64.ofNat_add]
    rfl
  · simp only [uncounted_afterOffload]
    omega
  · have hplanned := planned_afterOffload (s := { s with
      requestCount := s.requestCount + 1
      requests := s.requests + 1
      pc := afterOffload s.runtime }) rfl
    exact (Nat.add_le_add_left hplanned _).trans hbound
  · intro maxRequests hread
    exact absurd hread (afterOffload_ne_read s.runtime maxRequests)

theorem Balanced.restart {s : State τ ι} (h : Balanced s) (hpc : s.pc = .exited) :
    Balanced ({ s with runtime := Runtime.State.initial, pc := .test } : State τ ι) := by
  have hbalance := h.balance
  have hbound := h.bound
  simp only [planned, hpc, uncounted] at hbalance hbound
  exact { h with balance := hbalance, bound := hbound, asked := by simp }

variable [DecidableEq τ] [DecidableEq ι]

theorem Balanced.other {s : State τ ι} (h : Balanced s) {a : Other τ ι}
    {runtime : Runtime.State τ ι} (hruntime : Runtime.step s.runtime a.action = .ok runtime) :
    Balanced { s with runtime := runtime } := by
  refine { h with bound := ?_ }
  have hbound := h.bound
  unfold planned at hbound ⊢
  rw [← other_ok hruntime] at hbound
  exact hbound

theorem Balanced.read {s : State τ ι} (h : Balanced s) {maxRequests : UInt32}
    (hpc : s.pc = .read maxRequests) {runtime : Runtime.State τ ι}
    (hruntime : Runtime.step s.runtime (.read maxRequests.toNat) = .ok runtime) :
    Balanced { s with runtime := runtime, pc := .offload } := by
  have hbalance := h.balance
  have hbound := h.bound
  have hread := read_ok hruntime
  simp only [planned, hpc, uncounted] at hbalance hbound
  refine { h with balance := hbalance, bound := ?_, asked := by simp }
  simp only [planned]
  omega

/-- An offer takes one request out of the plan, and puts one into the device at most. -/
theorem Balanced.offload {s s' : State τ ι} (h : Balanced s) (hpc : s.pc = .offload)
    {status : CpaStatus} (hs : offload s status = .ok s') : Balanced s' := by
  have hbalance := h.balance
  have hbound := h.bound
  simp only [planned, hpc, uncounted] at hbalance hbound
  obtain ⟨runtime, hruntime, rfl | ⟨r, rfl⟩ | rfl⟩ := offload_ok hs
  · refine { h with balance := hbalance, bound := ?_, asked := by simp }
    simp only [planned]
    omega
  · have hone := dispatch_ok hruntime
    refine { h with balance := ?_, bound := ?_, asked := by simp }
    · simp only [uncounted, List.length_cons]
      omega
    · simp only [planned, List.length_cons]
      omega
  · have hone := dispatch_ok hruntime
    refine { h with balance := ?_, bound := ?_, asked := ?_ }
    · simp only [uncounted_afterOffload]
      omega
    · have hplanned := planned_afterOffload
        (s := { s with runtime := runtime, pc := afterOffload runtime }) rfl
      simp only at hplanned ⊢
      omega
    · intro maxRequests hread
      exact absurd hread (afterOffload_ne_read runtime maxRequests)

omit [DecidableEq τ] in
theorem Balanced.callback {s : State τ ι} (h : Balanced s) {r : Request ι} (hr : r ∈ s.inDevice) :
    Balanced { s with
      responseCount := s.responseCount + 1
      responses := s.responses + 1
      inDevice := s.inDevice.erase r } := by
  have hbalance := h.balance
  have hbound := h.bound
  have hpos := List.length_pos_of_mem hr
  refine { h with responseCount := ?_, balance := ?_, bound := ?_ }
  · simp only [h.responseCount, UInt64.ofNat_add]
    rfl
  · simp only [List.length_erase_of_mem hr]
    omega
  · simp only [List.length_erase_of_mem hr]
    exact (Nat.add_le_add_right (Nat.sub_le _ 1) _).trans hbound

theorem Balanced.step {s s' : State τ ι} (h : Balanced s) {a : Action τ ι}
    (hs : step s a = .ok s') : Balanced s' := by
  cases a with
  | other a =>
      obtain ⟨runtime, hruntime, hs⟩ := Section.bind_eq_ok.mp hs
      cases hs
      exact h.other hruntime
  | test running =>
      obtain ⟨_, hwait, hs⟩ := Section.bind_eq_ok.mp hs
      cases hs
      exact h.test (not_not.mp (of_waitWhile_ok hwait)) running
  | compute =>
      obtain ⟨_, hwait, hs⟩ := Section.bind_eq_ok.mp hs
      split at hs
      · cases hs
        exact h
      · next hroom =>
          cases hs
          exact h.compute (not_not.mp (of_waitWhile_ok hwait)) hroom
  | read =>
      cases hpc : s.pc with
      | read maxRequests =>
          simp only [Throttle.step, hpc] at hs
          obtain ⟨runtime, hruntime, hs⟩ := Section.bind_eq_ok.mp hs
          cases hs
          exact h.read hpc hruntime
      | _ => simp only [Throttle.step, hpc, reduceCtorEq] at hs
  | offload status =>
      obtain ⟨_, hwait, hs⟩ := Section.bind_eq_ok.mp hs
      exact h.offload (not_not.mp (of_waitWhile_ok hwait)) hs
  | count =>
      obtain ⟨_, hwait, hs⟩ := Section.bind_eq_ok.mp hs
      cases hs
      exact h.count (not_not.mp (of_waitWhile_ok hwait))
  | callback r =>
      obtain ⟨_, hwait, hs⟩ := Section.bind_eq_ok.mp hs
      cases hs
      exact h.callback (not_not.mp (of_waitWhile_ok hwait))
  | restart =>
      obtain ⟨_, hwait, hs⟩ := Section.bind_eq_ok.mp hs
      cases hs
      exact h.restart (not_not.mp (of_waitWhile_ok hwait))

/-! ### The bound -/

theorem step_ok {s s' : State τ ι} {a : Action τ ι} (h : (system τ ι).step s a = some s') :
    step s a = .ok s' :=
  Section.toOption_eq_some.mp h

theorem balanced {s : State τ ι} (h : (system τ ι).Reachable s) : Balanced s := by
  refine h.invariant ?_ fun s a s' hs _ hstep => hs.step (step_ok hstep)
  rintro s rfl
  exact .initial

/-- What the throttling is for. -/
structure Throttled (s : State τ ι) : Prop where
  /-- `pending` is the number of accepted requests that are not answered: the subtraction does
  not go below zero, wherever the counters themselves are -/
  exact : s.pc = .compute → s.responses ≤ s.requests ∧ s.pending.toNat = s.requests - s.responses ∧
    s.pending.toNat = s.inDevice.length
  /-- as long as the counter of the requests has not wrapped around, nor does the difference -/
  noBorrow : s.pc = .compute → s.requests < 2 ^ 64 → s.responseCount ≤ s.requestCount
  bounded : s.inDevice.length ≤ maxPending.toNat
  asked : ∀ maxRequests, s.pc = .read maxRequests →
    restartThreshold.toNat ≤ maxRequests.toNat ∧ maxRequests.toNat ≤ maxPending.toNat

/-- **The device is never overrun.** -/
theorem throttled {s : State τ ι} (h : (system τ ι).Reachable s) : Throttled s := by
  have hb := balanced h
  have hbound := hb.bound
  refine ⟨hb.pending_eq, fun hpc hlt => ?_, ?_, fun maxRequests hpc => ⟨?_, ?_⟩⟩
  · have hle := (hb.pending_eq hpc).1
    rw [hb.requestCount, hb.responseCount, UInt64.le_iff_toNat_le,
      UInt64.toNat_ofNat_of_lt' (hle.trans_lt hlt), UInt64.toNat_ofNat_of_lt' hlt]
    exact hle
  · rw [toNat_maxPending]
    exact (Nat.le_add_right _ _).trans hbound
  · rw [toNat_restartThreshold]
    exact hb.asked maxRequests hpc
  · simp only [planned, hpc] at hbound
    rw [toNat_maxPending]
    omega

/-- The answer to a request comes before the request is counted. -/
theorem throttled_early : ∃ s : State ℕ ℕ,
    (s.pc, s.requestCount, s.responseCount, s.inDevice) = (.accepted, 0, 1, []) ∧ Throttled s := by
  have hrun : ((system ℕ ℕ).run State.initial [.other (.submitDirect 5), .test true, .compute,
      .read, .offload .success, .callback ⟨none, 5⟩]).map
        (fun s => (s.pc, s.requestCount, s.responseCount, s.inDevice))
      = some (.accepted, 0, 1, []) := by rfl
  obtain ⟨s, hs, heq⟩ := TransitionSystem.reachable_of_map_run (system ℕ ℕ) rfl hrun
  exact ⟨s, heq, throttled hs⟩

/-- A step leaves the runtime alone, or makes a step of it, or starts it anew. -/
theorem runtime_ok {s s' : State τ ι} {a : Action τ ι} (hs : step s a = .ok s') :
    s'.runtime = s.runtime ∨ (∃ b, Runtime.step s.runtime b = .ok s'.runtime) ∨
      s'.runtime = Runtime.State.initial := by
  cases a with
  | other a =>
      obtain ⟨runtime, hruntime, hs⟩ := Section.bind_eq_ok.mp hs
      cases hs
      exact .inr (.inl ⟨_, hruntime⟩)
  | test running =>
      obtain ⟨-, -, hs⟩ := Section.bind_eq_ok.mp hs
      cases hs
      exact .inl rfl
  | compute =>
      obtain ⟨-, -, hs⟩ := Section.bind_eq_ok.mp hs
      split at hs <;> cases hs <;> exact .inl rfl
  | read =>
      cases hpc : s.pc with
      | read maxRequests =>
          simp only [Throttle.step, hpc] at hs
          obtain ⟨runtime, hruntime, hs⟩ := Section.bind_eq_ok.mp hs
          cases hs
          exact .inr (.inl ⟨_, hruntime⟩)
      | _ => simp only [Throttle.step, hpc, reduceCtorEq] at hs
  | offload status =>
      obtain ⟨-, -, hs⟩ := Section.bind_eq_ok.mp hs
      obtain ⟨runtime, hruntime, rfl | ⟨r, rfl⟩ | rfl⟩ := offload_ok hs
      all_goals exact .inr (.inl ⟨_, hruntime⟩)
  | count =>
      obtain ⟨-, -, hs⟩ := Section.bind_eq_ok.mp hs
      cases hs
      exact .inl rfl
  | callback r =>
      obtain ⟨-, -, hs⟩ := Section.bind_eq_ok.mp hs
      cases hs
      exact .inl rfl
  | restart =>
      obtain ⟨-, -, hs⟩ := Section.bind_eq_ok.mp hs
      cases hs
      exact .inr (.inr rfl)

/-- The runtime under the counters runs as it does without them. -/
theorem reachable_runtime {s : State τ ι} (h : (system τ ι).Reachable s) :
    (Runtime.system τ ι).Reachable s.runtime := by
  refine h.invariant (I := fun s => (Runtime.system τ ι).Reachable s.runtime) ?_
    fun s a s' hr _ hstep => ?_
  · rintro s rfl
    exact .init rfl
  rcases runtime_ok (step_ok hstep) with hsame | ⟨b, hb⟩ | hnew
  · rwa [hsame]
  · exact hr.step trivial (Section.toOption_eq_some.mpr hb)
  · exact .init hnew

end Ipcl.HeQat.Throttle
