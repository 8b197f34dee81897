/-
Requests that fail leave their callers waiting.

The waiting loops test for `HE_QAT_STATUS_READY` and nothing else, and of the four
places that record the outcome of a request only the successful callback writes it.
A request that is finished with another status keeps it: no later step of the loop or
of the device touches it except to write `HE_QAT_STATUS_FAIL` again.

So a run leaves nobody behind exactly when every outcome in it is a success.  Both
directions rest on one step: a success keeps every finished request ready, anything
else finishes a request that is not.
-/
import Ipcl.HeQat.Requests

namespace Ipcl.HeQat.Offload

variable {ι : Type} [DecidableEq ι] {sync : Bool} {s s' : State ι} {a : Action ι} {r : ι}

/-! ### What a step can do -/

/-- The steps, with the three outcomes of an offer apart. -/
inductive Effect (sync : Bool) (s : State ι) : Action ι → State ι → Prop
  | submit (r : ι) (callbackFunc : Callback) (opData : Nat) (hnew : s.tasks r = none) :
      Effect sync s (.submit r callbackFunc opData) { s with
        tasks := Function.update s.tasks r (some (.packed callbackFunc opData))
        queue := s.queue ++ [r] }
  | accepted (r : ι) (rest : List ι) (t : TaskRequest) (hq : s.queue = r :: rest)
      (ht : s.tasks r = some t) :
      Effect sync s (.offer .success) { s with
        queue := rest
        status := .success
        inDevice := r :: s.inDevice
        waiting := if sync then some r else none }
  | gaveUp (r : ι) (rest : List ι) (t : TaskRequest) (hq : s.queue = r :: rest)
      (ht : s.tasks r = some t) :
      Effect sync s (.offer .retry) { s with queue := rest, status := .retry, exited := true }
  | refused (r : ι) (rest : List ι) (t : TaskRequest) (result : CpaStatus)
      (hsuccess : result ≠ .success) (hretry : result ≠ .retry) (hq : s.queue = r :: rest)
      (ht : s.tasks r = some t) :
      Effect sync s (.offer result) { s with
        queue := rest
        status := result
        tasks := Function.update s.tasks r (some (failed t)) }
  | callback (r : ι) (a : Answer) (t : TaskRequest) (hr : r ∈ s.inDevice)
      (ht : s.tasks r = some t) :
      Effect sync s (.callback r a) { s with
        tasks := Function.update s.tasks r (some (t.answered a))
        inDevice := s.inDevice.erase r
        posted := if sync then r :: s.posted else s.posted }
  | completed (r : ι) (hw : s.waiting = some r) :
      Effect sync s .completed { s with waiting := none }
  | interrupted (r : ι) (t : TaskRequest) (hw : s.waiting = some r) (ht : s.tasks r = some t) :
      Effect sync s .interrupted { s with
        tasks := Function.update s.tasks r (some (failed t))
        waiting := none }

/-- Every request is a modular exponentiation. -/
def AllModExp (s : State ι) : Prop := ∀ r t, s.tasks r = some t → t.opType = .modExp

theorem step_effect (hop : AllModExp s) (h : step sync s a = some s') : Effect sync s a s' := by
  cases a with
  | submit r callbackFunc opData =>
      simp only [step] at h
      by_cases hr : (s.tasks r).isSome
      · rw [if_pos hr] at h
        cases h
      · rw [if_neg hr] at h
        cases h
        exact .submit r _ _ (by simpa using hr)
  | offer result =>
      simp only [step] at h
      by_cases hstop : s.exited = true ∨ s.waiting.isSome = true
      · rw [if_pos hstop] at h
        cases h
      rw [if_neg hstop] at h
      cases hq : s.queue with
      | nil =>
          rw [hq] at h
          cases h
      | cons r rest =>
          rw [hq] at h
          cases ht : s.tasks r with
          | none =>
              simp only [ht, Option.map_none] at h
              cases h
          | some t =>
              simp only [ht, Option.map_some, Option.some.injEq, offer, hop r t ht] at h
              by_cases hretry : result = .retry
              · subst hretry
                rw [if_pos rfl] at h
                rw [← h]
                exact .gaveUp r rest t hq ht
              rw [if_neg hretry] at h
              by_cases hsuccess : result = .success
              · subst hsuccess
                rw [if_pos rfl] at h
                rw [← h]
                exact .accepted r rest t hq ht
              · rw [if_neg hsuccess] at h
                rw [← h]
                exact .refused r rest t result hsuccess hretry hq ht
  | callback r answer =>
      simp only [step] at h
      by_cases hr : r ∈ s.inDevice
      · rw [if_pos hr] at h
        obtain ⟨t, ht, rfl⟩ := Option.map_eq_some_iff.mp h
        exact .callback r answer t hr ht
      · rw [if_neg hr] at h
        cases h
  | completed =>
      simp only [step] at h
      cases hw : s.waiting with
      | none =>
          rw [hw] at h
          cases h
      | some r =>
          simp only [hw] at h
          by_cases hp : r ∈ s.posted
          · rw [if_pos hp] at h
            cases h
            exact .completed r hw
          · rw [if_neg hp] at h
            cases h
  | interrupted =>
      simp only [step] at h
      cases hw : s.waiting with
      | none =>
          rw [hw] at h
          cases h
      | some r =>
          rw [hw] at h
          obtain ⟨t, ht, rfl⟩ := Option.map_eq_some_iff.mp h
          exact .interrupted r t hw ht

/-! ### What a callback writes -/

/-- The answer is a success, on the data of the request and with a result to hand over. -/
structure Answer.Good (a : Answer) (t : TaskRequest) : Prop where
  status : a.status = .success
  opData : a.pOpData = t.opData
  result : t.callbackFunc = .bignumModExp → a.bin2bn ≠ none

theorem bnModExpCallback_opType (t : TaskRequest) (status : CpaStatus) (pOpData : Nat) :
    (bnModExpCallback t status pOpData).opType = t.opType := by
  simp only [bnModExpCallback]
  split_ifs <;> rfl

theorem bignumModExpCallback_opType (t : TaskRequest) (status : CpaStatus) (pOpData : Nat)
    (r : Option (List Nat)) : (bignumModExpCallback t status pOpData r).opType = t.opType := by
  simp only [bignumModExpCallback]
  cases r <;> split_ifs <;> rfl

theorem answered_opType (t : TaskRequest) (a : Answer) : (t.answered a).opType = t.opType := by
  simp only [TaskRequest.answered]
  cases t.callbackFunc with
  | bnModExp => exact bnModExpCallback_opType _ _ _
  | bignumModExp => exact bignumModExpCallback_opType _ _ _ _

/-- A callback ends the wait exactly when the answer is good. -/
theorem waitOver_answered {t : TaskRequest} (hwait : ¬ t.WaitOver) (a : Answer) :
    (t.answered a).WaitOver ↔ Answer.Good a t := by
  have hkeep : t.requestStatus ≠ .ready := hwait
  constructor
  · intro h
    unfold TaskRequest.WaitOver TaskRequest.answered at h
    by_cases hs : a.status = .success
    · by_cases hd : a.pOpData = t.opData
      · refine ⟨hs, hd, fun hcb hnone => ?_⟩
        simp [hcb, bignumModExpCallback, hs, hd, hnone] at h
      · cases hcb : t.callbackFunc <;>
          simp [hcb, bnModExpCallback, bignumModExpCallback, hs, hd] at h
    · cases hcb : t.callbackFunc <;>
        simp [hcb, bnModExpCallback, bignumModExpCallback, hs, hkeep] at h
  · intro h
    unfold TaskRequest.WaitOver TaskRequest.answered
    cases hcb : t.callbackFunc with
    | bnModExp => simp [bnModExpCallback, h.status, h.opData]
    | bignumModExp =>
        obtain ⟨out, hout⟩ := Option.ne_none_iff_exists'.mp (h.result hcb)
        simp [bignumModExpCallback, h.status, h.opData, hout]

theorem not_waitOver_failed (t : TaskRequest) : ¬ (failed t).WaitOver := by
  intro h
  cases h

theorem not_waitOver_packed (f : Callback) (d : Nat) : ¬ (TaskRequest.packed f d).WaitOver := by
  intro h
  cases h

/-! ### The invariant -/

/-- A request is in at most one place, once, and its caller still waits while it is
there. -/
structure Inv (s : State ι) : Prop where
  queue : s.queue.Nodup
  device : s.inDevice.Nodup
  disjoint : ∀ r ∈ s.queue, r ∉ s.inDevice
  pending : ∀ r, r ∈ s.queue ∨ r ∈ s.inDevice → ∃ t, s.tasks r = some t ∧ ¬ t.WaitOver
  waiting : ∀ r, s.waiting = some r → (s.tasks r).isSome ∧ r ∉ s.queue
  modExp : AllModExp s

omit [DecidableEq ι] in
theorem Inv.initial : Inv (State.initial : State ι) where
  queue := List.nodup_nil
  device := List.nodup_nil
  disjoint r hr := absurd hr List.not_mem_nil
  pending r hr := by simp [State.initial] at hr
  waiting r hr := by cases hr
  modExp r t ht := by cases ht

/-- Changing one task to one that is not ready keeps what is known of those pending. -/
theorem pending_update {tasks : ι → Option TaskRequest} {t : TaskRequest} (ht : ¬ t.WaitOver)
    {q : ι} (h : q ≠ r → ∃ t', tasks q = some t' ∧ ¬ t'.WaitOver) :
    ∃ t', Function.update tasks r (some t) q = some t' ∧ ¬ t'.WaitOver := by
  by_cases hq : q = r
  · subst hq
    exact ⟨t, Function.update_self _ _ _, ht⟩
  · rw [Function.update_of_ne hq]
    exact h hq

theorem isSome_update {tasks : ι → Option TaskRequest} {t : TaskRequest} {q : ι}
    (h : (tasks q).isSome) : (Function.update tasks r (some t) q).isSome := by
  by_cases hq : q = r
  · rw [hq, Function.update_self]
    rfl
  · rwa [Function.update_of_ne hq]

theorem modExp_update {t : TaskRequest} (h : AllModExp s) (ht : t.opType = .modExp) :
    ∀ q t', Function.update s.tasks r (some t) q = some t' → t'.opType = .modExp := by
  intro q t' hq
  by_cases hqr : q = r
  · subst hqr
    rw [Function.update_self] at hq
    cases hq
    exact ht
  · rw [Function.update_of_ne hqr] at hq
    exact h q t' hq

/-- A new request goes to the end of the queue. -/
theorem Inv.submit (h : Inv s) {r : ι} (hnew : s.tasks r = none) (f : Callback) (d : ℕ) :
    Inv { s with
      tasks := Function.update s.tasks r (some (.packed f d))
      queue := s.queue ++ [r] } := by
  have hout : ∀ l : List ι, (∀ q ∈ l, q ∈ s.queue ∨ q ∈ s.inDevice) → r ∉ l := by
    intro l hl hr
    obtain ⟨t, ht, -⟩ := h.pending r (hl r hr)
    rw [hnew] at ht
    cases ht
  have hrq := hout s.queue fun q hq => .inl hq
  have hrd := hout s.inDevice fun q hq => .inr hq
  refine ⟨?_, h.device, ?_, ?_, ?_, modExp_update h.modExp rfl⟩
  · refine List.nodup_append.mpr ⟨h.queue, List.nodup_singleton r, ?_⟩
    intro x hx y hy hxy
    exact hrq (by rw [← List.mem_singleton.mp hy, ← hxy]; exact hx)
  · intro q hq
    rcases List.mem_append.mp hq with hq | hq
    · exact h.disjoint q hq
    · rw [List.mem_singleton.mp hq]
      exact hrd
  · intro q hq
    refine pending_update (not_waitOver_packed f d) fun hne => h.pending q ?_
    rcases hq with hq | hq
    · rcases List.mem_append.mp hq with hq | hq
      · exact .inl hq
      · exact absurd (List.mem_singleton.mp hq) hne
    · exact .inr hq
  · intro q hq
    obtain ⟨hsome, hnot⟩ := h.waiting q hq
    refine ⟨isSome_update hsome, ?_⟩
    rw [List.mem_append, List.mem_singleton, not_or]
    refine ⟨hnot, ?_⟩
    rintro rfl
    rw [hnew] at hsome
    cases hsome

omit [DecidableEq ι] in
/-- The first request of the queue goes to the device. -/
theorem Inv.accepted (h : Inv s) {r : ι} {rest : List ι} {t : TaskRequest}
    (hq : s.queue = r :: rest) (ht : s.tasks r = some t) (sync : Bool) :
    Inv { s with
      queue := rest
      status := .success
      inDevice := r :: s.inDevice
      waiting := if sync then some r else none } := by
  have hnd := h.queue
  rw [hq] at hnd
  obtain ⟨hrest, hnd⟩ := List.nodup_cons.mp hnd
  have hr : r ∉ s.inDevice := h.disjoint r (by simp [hq])
  refine ⟨hnd, List.nodup_cons.mpr ⟨hr, h.device⟩, ?_, ?_, ?_, h.modExp⟩
  · intro q hqr hqd
    rcases List.mem_cons.mp hqd with rfl | hqd
    · exact hrest hqr
    · exact h.disjoint q (by simp [hq, hqr]) hqd
  · intro q hqd
    refine h.pending q ?_
    rw [hq]
    rcases hqd with hqr | hqd
    · exact .inl (List.mem_cons_of_mem r hqr)
    · rcases List.mem_cons.mp hqd with rfl | hqd
      · exact .inl List.mem_cons_self
      · exact .inr hqd
  · intro q hw
    have hqr : r = q := by
      cases sync
      · cases hw
      · exact Option.some.inj hw
    subst hqr
    exact ⟨by rw [ht]; rfl, hrest⟩

/-- A callback takes its request out of the device. -/
theorem Inv.callback (h : Inv s) {r : ι} {t : TaskRequest} (hr : r ∈ s.inDevice)
    (ht : s.tasks r = some t) (answer : Answer) (posted : List ι) :
    Inv { s with
      tasks := Function.update s.tasks r (some (t.answered answer))
      inDevice := s.inDevice.erase r
      posted := posted } := by
  refine ⟨h.queue, h.device.erase r, ?_, ?_,
    fun q hw => ⟨isSome_update (h.waiting q hw).1, (h.waiting q hw).2⟩,
    modExp_update h.modExp ?_⟩
  · intro q hq hqd
    exact h.disjoint q hq (List.mem_of_mem_erase hqd)
  · intro q hqd
    have hne : q ≠ r := by
      rintro rfl
      rcases hqd with hq | hqd
      · exact h.disjoint q hq hr
      · exact (List.Nodup.mem_erase_iff h.device).mp hqd |>.1 rfl
    show ∃ t', Function.update s.tasks r _ q = some t' ∧ _
    rw [Function.update_of_ne hne]
    exact h.pending q (hqd.imp id List.mem_of_mem_erase)
  · rw [answered_opType]
    exact h.modExp r t ht

theorem Inv.step (h : Inv s) (hs : step sync s a = some s') : Inv s' := by
  cases step_effect h.modExp hs with
  | submit r f d hnew => exact h.submit hnew _ _
  | accepted r rest t hq ht => exact h.accepted hq ht sync
  | gaveUp r rest t hq ht =>
      have hsub : ∀ q ∈ rest, q ∈ s.queue := fun q hqr => by simp [hq, hqr]
      have hnd := h.queue
      rw [hq] at hnd
      exact ⟨(List.nodup_cons.mp hnd).2, h.device, fun q hqr => h.disjoint q (hsub q hqr),
        fun q hqd => h.pending q (hqd.imp (hsub q) id),
        fun q hw => ⟨(h.waiting q hw).1, fun hqr => (h.waiting q hw).2 (hsub q hqr)⟩, h.modExp⟩
  | refused r rest t result _ _ hq ht =>
      have hsub : ∀ q ∈ rest, q ∈ s.queue := fun q hqr => by simp [hq, hqr]
      have hnd := h.queue
      rw [hq] at hnd
      refine ⟨(List.nodup_cons.mp hnd).2, h.device, fun q hqr => h.disjoint q (hsub q hqr), ?_,
        fun q hw => ⟨isSome_update (h.waiting q hw).1, fun hqr => (h.waiting q hw).2 (hsub q hqr)⟩,
        modExp_update h.modExp (h.modExp r t ht)⟩
      intro q hqd
      exact pending_update (not_waitOver_failed t) fun _ => h.pending q (hqd.imp (hsub q) id)
  | callback r answer t hr ht => exact h.callback hr ht answer _
  | completed r hw =>
      exact ⟨h.queue, h.device, h.disjoint, h.pending, (fun q hw => by cases hw), h.modExp⟩
  | interrupted r t hw ht =>
      refine ⟨h.queue, h.device, h.disjoint, ?_, (fun q hw => by cases hw),
        modExp_update h.modExp (h.modExp r t ht)⟩
      intro q hqd
      exact pending_update (not_waitOver_failed t) fun _ => h.pending q hqd

/-! ### Finished requests -/

/-- A finished request whose caller waits. -/
def LeftBehind (s : State ι) (r : ι) : Prop :=
  s.Finished r ∧ ∃ t, s.tasks r = some t ∧ ¬ t.WaitOver

/-- Nothing ends the wait of a request that is left behind. -/
theorem LeftBehind.step (hI : Inv s) (h : LeftBehind s r) (hs : step sync s a = some s') :
    LeftBehind s' r := by
  obtain ⟨⟨hsome, hq, hd⟩, t, ht, hwait⟩ := h
  have hold : ∃ t, s.tasks r = some t ∧ ¬ t.WaitOver := ⟨t, ht, hwait⟩
  cases step_effect hI.modExp hs with
  | submit r₁ f d hnew =>
      have hne : r ≠ r₁ := by
        rintro rfl
        rw [hnew] at ht
        cases ht
      have hnew : ∃ t', Function.update s.tasks r₁ (some (.packed f d)) r = some t' ∧
          ¬ t'.WaitOver := pending_update (not_waitOver_packed f d) fun _ => hold
      exact ⟨⟨isSome_update hsome, by simp [hq, hne], hd⟩, hnew⟩
  | accepted r₁ rest t₁ hq₁ ht₁ =>
      rw [hq₁, List.mem_cons, not_or] at hq
      exact ⟨⟨hsome, hq.2, by simp [hq.1, hd]⟩, hold⟩
  | gaveUp r₁ rest t₁ hq₁ ht₁ =>
      rw [hq₁, List.mem_cons, not_or] at hq
      exact ⟨⟨hsome, hq.2, hd⟩, hold⟩
  | refused r₁ rest t₁ result _ _ hq₁ ht₁ =>
      rw [hq₁, List.mem_cons, not_or] at hq
      have hnew : ∃ t', Function.update s.tasks r₁ (some (failed t₁)) r = some t' ∧
          ¬ t'.WaitOver := pending_update (not_waitOver_failed t₁) fun _ => hold
      exact ⟨⟨isSome_update hsome, hq.2, hd⟩, hnew⟩
  | callback r₁ answer t₁ hr₁ ht₁ =>
      have hne : r ≠ r₁ := fun heq => hd (heq ▸ hr₁)
      refine ⟨⟨isSome_update hsome, hq, fun hmem => hd (List.mem_of_mem_erase hmem)⟩, ?_⟩
      · show ∃ t', Function.update s.tasks r₁ _ r = some t' ∧ _
        rw [Function.update_of_ne hne]
        exact hold
  | completed r₁ hw => exact ⟨⟨hsome, hq, hd⟩, hold⟩
  | interrupted r₁ t₁ hw ht₁ =>
      have hnew : ∃ t', Function.update s.tasks r₁ (some (failed t₁)) r = some t' ∧
          ¬ t'.WaitOver := pending_update (not_waitOver_failed t₁) fun _ => hold
      exact ⟨⟨isSome_update hsome, hq, hd⟩, hnew⟩

/-- To be left behind is to be stuck. -/
theorem stuck_iff (hI : Inv s) : Stuck sync s r ↔ LeftBehind s r := by
  constructor
  · intro h
    obtain ⟨t, ht⟩ := Option.isSome_iff_exists.mp h.finished.1
    exact ⟨h.finished, t, ht, h.forever [] s rfl t ht⟩
  · intro h
    refine ⟨h.1, fun as u hrun request hreq => ?_⟩
    have hstay := ((system ι sync).run_invariant
      (I := fun s => Inv s ∧ LeftBehind s r)
      (fun s a s' h hs => ⟨h.1.step hs, h.2.step h.1 hs⟩) ⟨hI, h⟩ hrun).2
    obtain ⟨-, t, ht, hwait⟩ := hstay
    rw [hreq] at ht
    cases ht
    exact hwait

/-! ### Which steps leave a request behind -/

/-- The outcome the step records is a success.  The wait for a completion may fail only
while the callback is still to come. -/
def Succeeds (s : State ι) : Action ι → Prop
  | .submit _ _ _ => True
  | .offer result => result = .success
  | .callback r a => ∀ t, s.tasks r = some t → Answer.Good a t
  | .completed => True
  | .interrupted => ∀ r, s.waiting = some r → r ∈ s.inDevice

/-- Every finished request is ready. -/
def NoneLeft (s : State ι) : Prop := ∀ r, ¬ LeftBehind s r

omit [DecidableEq ι] in
theorem NoneLeft.initial : NoneLeft (State.initial : State ι) := by
  intro r hleft
  obtain ⟨-, t, ht, -⟩ := hleft
  cases ht

theorem NoneLeft.step (hI : Inv s) (h : NoneLeft s) (hok : Succeeds s a)
    (hs : step sync s a = some s') : NoneLeft s' := by
  intro r hleft
  obtain ⟨⟨hsome, hq, hd⟩, t, ht, hwait⟩ := hleft
  have hback : r ∉ s.queue → r ∉ s.inDevice → s.tasks r ≠ some t := fun hq hd ht =>
    h r ⟨⟨by rw [ht]; rfl, hq, hd⟩, t, ht, hwait⟩
  cases step_effect hI.modExp hs with
  | submit r₁ f d hnew =>
      simp only [List.mem_append, List.mem_singleton, not_or] at hq
      refine hback hq.1 hd ?_
      rw [← ht]
      exact (Function.update_of_ne hq.2 _ _).symm
  | accepted r₁ rest t₁ hq₁ ht₁ =>
      simp only [List.mem_cons, not_or] at hd
      refine hback ?_ hd.2 ht
      rw [hq₁]
      simp [hd.1, hq]
  | gaveUp r₁ rest t₁ hq₁ ht₁ => cases hok
  | refused r₁ rest t₁ result hsuccess _ hq₁ ht₁ => exact hsuccess hok
  | callback r₁ answer t₁ hr₁ ht₁ =>
      by_cases hne : r = r₁
      · subst hne
        obtain ⟨t₂, ht₂, hwait₂⟩ := hI.pending r (.inr hr₁)
        rw [ht₁] at ht₂
        cases ht₂
        have hnew : Function.update s.tasks r (some (t₁.answered answer)) r = some t := ht
        rw [Function.update_self] at hnew
        cases hnew
        exact hwait ((waitOver_answered hwait₂ answer).mpr (hok t₁ ht₁))
      · refine hback hq (fun hmem => hd ((List.mem_erase_of_ne hne).mpr hmem)) ?_
        rw [← ht]
        exact (Function.update_of_ne hne _ _).symm
  | completed r₁ hw => exact hback hq hd ht
  | interrupted r₁ t₁ hw ht₁ =>
      have hne : r ≠ r₁ := fun heq => hd (heq ▸ hok r₁ hw)
      refine hback hq hd ?_
      rw [← ht]
      exact (Function.update_of_ne hne _ _).symm

/-- A step that is not a success finishes a request without ending its wait. -/
theorem not_noneLeft_step (hI : Inv s) (hok : ¬ Succeeds s a) (hs : step sync s a = some s') :
    ¬ NoneLeft s' := by
  intro hall
  cases step_effect hI.modExp hs with
  | submit r₁ f d hnew => exact hok trivial
  | accepted r₁ rest t₁ hq₁ ht₁ => exact hok rfl
  | gaveUp r₁ rest t₁ hq₁ ht₁ =>
      have hr₁ : r₁ ∈ s.queue := by simp [hq₁]
      have hnd := hI.queue
      rw [hq₁] at hnd
      obtain ⟨t, ht, hwait⟩ := hI.pending r₁ (.inl hr₁)
      refine hall r₁ ⟨⟨?_, (List.nodup_cons.mp hnd).1, hI.disjoint r₁ hr₁⟩, t, ht, hwait⟩
      show (s.tasks r₁).isSome
      rw [ht]
      rfl
  | refused r₁ rest t₁ result _ _ hq₁ ht₁ =>
      have hr₁ : r₁ ∈ s.queue := by simp [hq₁]
      have hnd := hI.queue
      rw [hq₁] at hnd
      have hnew : Function.update s.tasks r₁ (some (failed t₁)) r₁ = some (failed t₁) :=
        Function.update_self _ _ _
      exact hall r₁ ⟨⟨isSome_update (by rw [ht₁]; rfl), (List.nodup_cons.mp hnd).1,
        hI.disjoint r₁ hr₁⟩, _, hnew, not_waitOver_failed t₁⟩
  | callback r₁ answer t₁ hr₁ ht₁ =>
      obtain ⟨t₂, ht₂, hwait⟩ := hI.pending r₁ (.inr hr₁)
      rw [ht₁] at ht₂
      cases ht₂
      have hbad : ¬ Answer.Good answer t₁ := by
        intro hgood
        refine hok fun t ht => ?_
        rw [ht₁] at ht
        cases ht
        exact hgood
      have hnew : Function.update s.tasks r₁ (some (t₁.answered answer)) r₁
          = some (t₁.answered answer) := Function.update_self _ _ _
      exact hall r₁ ⟨⟨isSome_update (by rw [ht₁]; rfl), fun hq => hI.disjoint r₁ hq hr₁,
        fun hmem => (List.Nodup.mem_erase_iff hI.device).mp hmem |>.1 rfl⟩, _, hnew,
        fun hready => hbad ((waitOver_answered hwait answer).mp hready)⟩
  | completed r₁ hw => exact hok trivial
  | interrupted r₁ t₁ hw ht₁ =>
      have hd : r₁ ∉ s.inDevice := by
        intro hd
        refine hok fun r hr => ?_
        rw [hw] at hr
        cases hr
        exact hd
      have hnew : Function.update s.tasks r₁ (some (failed t₁)) r₁ = some (failed t₁) :=
        Function.update_self _ _ _
      exact hall r₁ ⟨⟨isSome_update (by rw [ht₁]; rfl), (hI.waiting r₁ hw).2, hd⟩, _, hnew,
        not_waitOver_failed t₁⟩

/-! ### Runs -/

/-- No request is finished with its caller still waiting, or waits for ever. -/
structure NobodyWaits (sync : Bool) (s : State ι) : Prop where
  ready : ∀ r t, s.Finished r → s.tasks r = some t → t.WaitOver
  notStuck : ∀ r, ¬ Stuck sync s r

theorem nobodyWaits_iff (hI : Inv s) : NobodyWaits sync s ↔ NoneLeft s := by
  constructor
  · intro h r hr
    exact h.notStuck r ((stuck_iff hI).mpr hr)
  · intro h
    refine ⟨fun r t hfin ht => ?_, fun r hr => h r ((stuck_iff hI).mp hr)⟩
    by_contra hwait
    exact h r ⟨hfin, t, ht, hwait⟩

/-- **A run leaves nobody waiting exactly when every outcome in it is a success.** -/
theorem nobody_waits_iff {as : List (Action ι)}
    (hrun : (system ι sync).run State.initial as = some s) :
    NobodyWaits sync s ↔ (system ι sync).Meets Succeeds State.initial as := by
  have hI : Inv s := (system ι sync).run_invariant
    (fun _ _ _ h hs => h.step hs) Inv.initial hrun
  rw [nobodyWaits_iff hI]
  exact (system ι sync).holds_iff_meets (fun _ _ _ h hs => h.step hs)
    (fun _ _ _ hI hG hok hs => hG.step hI hok hs)
    (fun _ _ _ hI hok hs => not_noneLeft_step hI hok hs)
    (fun _ _ _ hI hG hs hall => by
      obtain ⟨r, hr⟩ := not_forall_not.mp hG
      exact hall r (hr.step hI hs))
    Inv.initial NoneLeft.initial hrun

/-- One request, accepted and answered. -/
theorem nobody_waits_one : ∃ s, (system Nat true).run State.initial
    [.submit 0 .bnModExp 5, .offer .success, .callback 0 ⟨.success, 5, [1], none⟩, .completed]
      = some s ∧ NobodyWaits true s := by
  obtain ⟨s, hs⟩ := Option.isSome_iff_exists.mp (show ((system Nat true).run State.initial
    [.submit 0 .bnModExp 5, .offer .success, .callback 0 ⟨.success, 5, [1], none⟩,
      .completed]).isSome by decide)
  refine ⟨s, hs, (nobody_waits_iff hs).mpr ?_⟩
  refine ⟨trivial, fun t ht => ?_⟩
  cases ht
  refine ⟨rfl, fun t ht => ?_⟩
  cases ht
  refine ⟨fun t ht => ?_, fun t ht => ?_⟩
  · cases ht
    exact ⟨rfl, rfl, fun hcb => by cases hcb⟩
  · exact ⟨trivial, fun _ _ => trivial⟩

/-- One request, which the device refuses. -/
theorem somebody_waits : ∃ s : State Nat, (system Nat false).run State.initial
    [.submit 0 .bnModExp 5, .offer .fail] = some s ∧ ¬ NobodyWaits false s := by
  obtain ⟨s, hs⟩ := Option.isSome_iff_exists.mp (show ((system Nat false).run State.initial
    [.submit 0 .bnModExp 5, .offer .fail]).isSome by decide)
  refine ⟨s, hs, fun h => ?_⟩
  cases hs
  exact absurd (h.ready 0 _ ⟨rfl, by decide, by decide⟩ rfl) (by decide)

end Ipcl.HeQat.Offload
