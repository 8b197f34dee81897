/-
Start-up and release step by step.

What a step can do is listed once, and the invariants are derived from the list.  Those of the
processing thread have no part of the release in them: which instances it has marked as active
follows from where it is, and an instance that is active has a polling thread and has started.
Beside them stands what the release relies on: nobody else holds the mutex it holds, and when it
waits while the other thread is in its loop, that thread has set its flag anew.
-/
import Ipcl.HeQat.Shutdown

namespace Ipcl.HeQat.Shutdown

variable {s s' : State} {a : Action}

/-! ### What a step can do -/

inductive Effect (s : State) : Action → State → Prop
  | locks (j : ℕ) (hpc : s.processor = .lock j) (hj : j < numActiveInstances)
      (hfree : ¬ s.release.Holds j) : Effect s .processor { s with processor := .test j }
  | enters (j : ℕ) (hpc : s.processor = .lock j) (hj : numActiveInstances ≤ j) :
      Effect s .processor { s with running := true, active := true, processor := .check }
  | activates (j : ℕ) (hpc : s.processor = .activate j) : Effect s .processor { s with
      instActive := Function.update s.instActive j true
      instRunning := Function.update s.instRunning j true
      processor := .lock (j + 1) }
  | checks (hpc : s.processor = .check) :
      Effect s .processor { s with processor := if s.running then .read else .exited }
  | finishes (hpc : s.processor = .offload 0) :
      Effect s .processor { s with processor := .check }
  | starts (j : ℕ) (status translated : CpaStatus) (hpc : s.processor = .test j)
      (hactive : s.instActive j = false) : Effect s (.startInstance status translated) { s with
        instStatus := Function.update s.instStatus j status
        release := s.release.signal j
        processor := if status = .success ∧ translated = .success then .create j else .exited }
  | creates (j : ℕ) (created detached : Bool) (hpc : s.processor = .create j) :
      Effect s (.createPoller created detached) { s with
        pollers := if created then Function.update s.pollers j .created else s.pollers
        processor := if created && detached then .activate j else .exited }
  | reads (count : ℕ) (hpc : s.processor = .read) :
      Effect s (.read count) { s with processor := .offload count }
  | accepts (left : ℕ) (hpc : s.processor = .offload (left + 1)) :
      Effect s (.offload .success) { s with
        nextInstance := (s.nextInstance + 1) % numActiveInstances
        release := s.release.signal ((s.nextInstance + 1) % numActiveInstances)
        processor := .offload left }
  | halts (left : ℕ) (hpc : s.processor = .offload (left + 1)) :
      Effect s (.offload .retry) { s with processor := .exited }
  | refuses (left : ℕ) (status : CpaStatus) (hpc : s.processor = .offload (left + 1))
      (hstatus : status ≠ .success) :
      Effect s (.offload status) { s with processor := .offload left }
  | calls (hpc : s.release = .idle) : Effect s .call { s with release := .clear }
  | clears (hpc : s.release = .clear) :
      Effect s .release { s with active := false, running := false, release := .lock 0 }
  | takes (i : ℕ) (hpc : s.release = .lock i) (hi : i < numActiveInstances)
      (hfree : ¬ s.processor.Holds i) : Effect s .release { s with release := .test i }
  | returns (i : ℕ) (hpc : s.release = .lock i) (hi : numActiveInstances ≤ i) :
      Effect s .release { s with release := .returned }
  | tells (i : ℕ) (hpc : s.release = .test i) (hactive : s.instActive i = true)
      (cleared : (ℕ → Bool) → ℕ → Bool)
      (hcleared : ∀ flag, cleared flag =
        if s.instStatus i = .success then Function.update flag i false else flag) :
      Effect s .release { s with
        instPolling := cleared s.instPolling
        instRunning := cleared s.instRunning
        release := .stop i }
  | waits (i : ℕ) (hpc : s.release = .test i) (hactive : s.instActive i = false) :
      Effect s .release { s with release := .wait i }
  | sleeps (i : ℕ) (hpc : s.release = .wait i) :
      Effect s .release { s with release := .asleep i }
  | stops (i : ℕ) (hpc : s.release = .stop i) :
      Effect s .release { s with release := .lock (i + 1) }
  | wakes (i : ℕ) (hpc : s.release = .asleep i) : Effect s .wake { s with release := .lock i }
  | begins (i : ℕ) (hpc : s.pollers i = .created) : Effect s (.poller i) { s with
      instPolling := Function.update s.instPolling i true
      pollers := Function.update s.pollers i .polling }
  | polls (i : ℕ) (hpc : s.pollers i = .polling) : Effect s (.poller i) { s with
      pollers := Function.update s.pollers i (if s.instPolling i then .polling else .exited) }

theorem processor_effect (h : startInstances s = some s') : Effect s .processor s' := by
  unfold startInstances at h
  split at h
  · next j hpc =>
      split_ifs at h with hj hheld
      · cases h
        exact .locks j hpc hj hheld
      · cases h
        exact .enters j hpc (not_lt.mp hj)
  · next j hpc =>
      cases h
      exact .activates j hpc
  · next hpc =>
      cases h
      exact .checks hpc
  · next hpc =>
      cases h
      exact .finishes hpc
  · cases h

theorem release_effect (h : stopInstances s = some s') : Effect s .release s' := by
  unfold stopInstances at h
  split at h
  · next hpc =>
      cases h
      exact .clears hpc
  · next i hpc =>
      split_ifs at h with hi hheld
      · cases h
        exact .takes i hpc hi hheld
      · cases h
        exact .returns i hpc (not_lt.mp hi)
  · next i hpc =>
      by_cases hactive : s.instActive i = true
      · rw [if_pos hactive] at h
        cases h
        exact .tells i hpc hactive (fun flag => if s.instStatus i = .success then
          Function.update flag i false else flag) fun _ => rfl
      · rw [if_neg hactive] at h
        cases h
        exact .waits i hpc (Bool.eq_false_iff.mpr hactive)
  · next i hpc =>
      cases h
      exact .sleeps i hpc
  · next i hpc =>
      cases h
      exact .stops i hpc
  · cases h

theorem offload_effect {status : CpaStatus} (h : offload s status = some s') :
    Effect s (.offload status) s' := by
  unfold offload at h
  split at h
  · next left hpc =>
      split at h
      · cases h
        exact .accepts left hpc
      · cases h
        exact .halts left hpc
      · next hsuccess _ =>
          cases h
          exact .refuses left status hpc fun heq => hsuccess heq
  · cases h

theorem step_effect (h : system.step s a = some s') : Effect s a s' := by
  cases a with
  | processor => exact processor_effect h
  | startInstance status translated =>
      replace h : startInstance s status translated = some s' := h
      unfold startInstance at h
      split at h
      · next j hpc =>
          by_cases hactive : s.instActive j = true
          · rw [if_pos hactive] at h
            cases h
          rw [if_neg hactive] at h
          cases h
          exact .starts j status translated hpc (Bool.eq_false_iff.mpr hactive)
      · cases h
  | createPoller created detached =>
      replace h : createPoller s created detached = some s' := h
      unfold createPoller at h
      split at h
      · next j hpc =>
          cases h
          exact .creates j created detached hpc
      · cases h
  | read count =>
      replace h : readRequests s count = some s' := h
      unfold readRequests at h
      split at h
      · next hpc =>
          cases h
          exact .reads count hpc
      · cases h
  | offload status => exact offload_effect h
  | call =>
      replace h : (if s.release = .idle then some { s with release := .clear } else none)
        = some s' := h
      split_ifs at h with hpc
      cases h
      exact .calls hpc
  | release => exact release_effect h
  | wake =>
      simp only [system, step] at h
      split at h
      · next i hpc =>
          cases h
          exact .wakes i hpc
      · cases h
  | poller i =>
      replace h : startInstPolling s i = some s' := h
      unfold startInstPolling at h
      split at h
      · next hpc =>
          cases h
          exact .begins i hpc
      · next hpc =>
          cases h
          exact .polls i hpc
      · cases h

/-! ### The start-up -/

/-- How many instances the processing thread has signalled in its start-up. -/
def ProcessorPc.signalled : ProcessorPc → ℕ
  | .lock j | .test j => j
  | .create j | .activate j => j + 1
  | _ => numActiveInstances

/-- How many of them it has marked as active. -/
def ProcessorPc.activated : ProcessorPc → ℕ
  | .lock j | .test j | .create j | .activate j => j
  | _ => numActiveInstances

def ProcessorPc.Within : ProcessorPc → Prop
  | .lock j => j ≤ numActiveInstances
  | .test j | .create j | .activate j => j < numActiveInstances
  | _ => True

/-- What the processing thread has done so far.  The release has no part in it. -/
structure Begun (pc : ProcessorPc) (next : ℕ) (up : ℕ → Bool) (pollers : ℕ → PollerPc)
    (outcome : ℕ → CpaStatus) : Prop where
  within : pc.Within
  bounded : next < numActiveInstances
  active : pc ≠ .exited → ∀ k < numActiveInstances, up k = true ↔ k < pc.activated
  poller : ∀ k, up k = true → pollers k ≠ .none
  created : ∀ k, pc = .activate k → pollers k ≠ .none
  status : ∀ k, up k = true → outcome k = .success
  started : ∀ k, pc = .create k ∨ pc = .activate k → outcome k = .success

abbrev State.Begun (s : State) : Prop :=
  Shutdown.Begun s.processor s.nextInstance s.instActive s.pollers s.instStatus

section

variable {pc pc' : ProcessorPc} {next i j : ℕ} {up : ℕ → Bool} {pollers : ℕ → PollerPc}
  {outcome : ℕ → CpaStatus}

/-- The processing thread goes on, without news of an instance. -/
theorem Begun.moves (h : Begun pc next up pollers outcome) (hwithin : pc'.Within)
    (hpc : pc' ≠ .exited → pc ≠ .exited ∧ pc'.activated = pc.activated)
    (hcreate : ∀ k, pc' ≠ .create k) (hactivate : ∀ k, pc' ≠ .activate k) :
    Begun pc' next up pollers outcome where
  within := hwithin
  bounded := h.bounded
  active hne k hk := by
    obtain ⟨halive, heq⟩ := hpc hne
    rw [heq]
    exact h.active halive k hk
  poller := h.poller
  created k heq := absurd heq (hactivate k)
  status := h.status
  started k heq := by simp [hcreate, hactivate] at heq

/-- The device has accepted a request. -/
theorem Begun.advances (h : Begun pc next up pollers outcome) :
    Begun pc ((next + 1) % numActiveInstances) up pollers outcome :=
  { h with bounded := Nat.mod_lt _ (by decide) }

/-- An instance is marked as active. -/
theorem Begun.activates (h : Begun (.activate j) next up pollers outcome) :
    Begun (.lock (j + 1)) next (Function.update up j true) pollers outcome where
  within := h.within
  bounded := h.bounded
  active _ k hk := by
    have hactive : up k = true ↔ k < j := h.active (by simp) k hk
    show _ ↔ k < j + 1
    rcases eq_or_ne k j with rfl | hkj
    · simp
    · rw [Function.update_of_ne hkj, hactive]
      omega
  poller k hk := by
    rcases eq_or_ne k j with rfl | hkj
    · exact h.created k rfl
    · exact h.poller k (by rwa [Function.update_of_ne hkj] at hk)
  created k heq := by simp at heq
  status k hk := by
    rcases eq_or_ne k j with rfl | hkj
    · exact h.started k (.inr rfl)
    · exact h.status k (by rwa [Function.update_of_ne hkj] at hk)
  started k heq := by simp at heq

/-- An instance is started, or fails to start. -/
theorem Begun.starts (h : Begun (.test j) next up pollers outcome)
    (hinactive : up j = false) (value : CpaStatus) {ok : Prop} [Decidable ok]
    (hok : ok → value = .success) :
    Begun (if ok then .create j else .exited) next up pollers
      (Function.update outcome j value) where
  within := by
    split
    · exact h.within
    · trivial
  bounded := h.bounded
  active hne k hk := by
    have hactive := h.active (by simp) k hk
    by_cases hc : ok
    · rwa [if_pos hc]
    · simp [hc] at hne
  poller := h.poller
  created k heq := by
    by_cases hc : ok <;> simp [hc] at heq
  status k hk := by
    have hkj : k ≠ j := fun heq => by simp [heq, hinactive] at hk
    rw [Function.update_of_ne hkj]
    exact h.status k hk
  started k heq := by
    by_cases hc : ok
    · obtain rfl : j = k := by simpa [hc] using heq
      rw [Function.update_self]
      exact hok hc
    · simp [hc] at heq

/-- A polling thread is created, or that fails. -/
theorem Begun.creates (h : Begun (.create j) next up pollers outcome)
    (created detached : Bool) :
    Begun (if created && detached then .activate j else .exited) next up
      (if created then Function.update pollers j .created else pollers) outcome where
  within := by
    split
    · exact h.within
    · trivial
  bounded := h.bounded
  active hne k hk := by
    have hactive := h.active (by simp) k hk
    by_cases hc : (created && detached) = true
    · rwa [if_pos hc]
    · simp [hc] at hne
  poller k hk := by
    have hsome := h.poller k hk
    cases created
    · exact hsome
    · rcases eq_or_ne k j with rfl | hkj
      · simp
      · simpa [hkj] using hsome
  created k heq := by
    cases created
    · simp at heq
    · cases detached
      · simp at heq
      · obtain rfl : j = k := by simpa using heq
        simp
  status := h.status
  started k heq := by
    by_cases hc : (created && detached) = true
    · obtain rfl : j = k := by simpa [hc] using heq
      exact h.started j (.inl rfl)
    · simp [hc] at heq

/-- A polling thread goes on. -/
theorem Begun.polls (h : Begun pc next up pollers outcome) {p : PollerPc} (hp : p ≠ .none) :
    Begun pc next up (Function.update pollers i p) outcome :=
  have hsome : ∀ k, pollers k ≠ .none → Function.update pollers i p k ≠ .none := by
    intro k hk
    rcases eq_or_ne k i with rfl | hki
    · simpa using hp
    · simpa [hki] using hk
  { h with
    poller := fun k hk => hsome k (h.poller k hk)
    created := fun k hk => hsome k (h.created k hk) }

end

theorem begun_init (h : system.init s) : s.Begun := by
  obtain ⟨next, hnext, rfl⟩ := h
  refine ⟨Nat.zero_le _, hnext, ?_, ?_, ?_, ?_, ?_⟩
  all_goals simp [State.initial, ProcessorPc.activated]

theorem begun_step (h : s.Begun) (hs : system.step s a = some s') : s'.Begun := by
  have hwithin := h.within
  cases step_effect hs with
  | locks j hpc hj _ =>
      refine h.moves hj (fun _ => ⟨by simp [hpc], by rw [hpc]; rfl⟩) ?_ ?_
      all_goals simp
  | enters j hpc hj =>
      have heq : j = numActiveInstances := le_antisymm (by rwa [hpc] at hwithin) hj
      refine h.moves trivial (fun _ => ⟨by simp [hpc], by rw [hpc, heq]; rfl⟩) ?_ ?_
      all_goals simp
  | activates j hpc => exact (hpc ▸ h : Begun _ _ _ _ _).activates
  | checks hpc =>
      cases hrun : s.running
      all_goals
        refine h.moves trivial (fun _ => ⟨by simp [hpc], ?_⟩) ?_ ?_
        all_goals simp_all [ProcessorPc.activated]
  | finishes hpc | reads count hpc | refuses left status hpc _ =>
      refine h.moves trivial (fun _ => ⟨by simp [hpc], by rw [hpc]; rfl⟩) ?_ ?_
      all_goals simp
  | starts j status translated hpc hinactive =>
      exact (hpc ▸ h : Begun _ _ _ _ _).starts hinactive status And.left
  | creates j created detached hpc => exact (hpc ▸ h : Begun _ _ _ _ _).creates created detached
  | accepts left hpc =>
      refine (h.advances.moves trivial (fun _ => ⟨by simp [hpc], by rw [hpc]; rfl⟩) ?_ ?_)
      all_goals simp
  | halts left hpc =>
      refine h.moves trivial (fun hne => absurd rfl hne) ?_ ?_
      all_goals simp
  | begins i hpc => exact h.polls (by simp)
  | polls i hpc => exact h.polls (by split <;> simp)
  | _ => exact h

/-! ### The release beside it -/

def ProcessorPc.Looping : ProcessorPc → Prop
  | .check | .read | .offload _ => True
  | _ => False

def ReleasePc.Within : ReleasePc → Prop
  | .test i | .wait i | .asleep i | .stop i => i < numActiveInstances
  | _ => True

theorem Begun.all_active (h : s.Begun) (hl : s.processor.Looping) :
    ∀ k < numActiveInstances, s.instActive k = true := by
  intro k hk
  have hne : s.processor ≠ .exited := fun heq => by simp [heq, ProcessorPc.Looping] at hl
  have hactivated : s.processor.activated = numActiveInstances := by
    cases hpc : s.processor with
    | check | read | offload _ => rfl
    | exited => exact absurd hpc hne
    | _ => simp [hpc, ProcessorPc.Looping] at hl
  rw [h.active hne k hk, hactivated]
  exact hk

structure Inv (s : State) : Prop where
  begun : s.Begun
  within : s.release.Within
  apart : ∀ j, s.processor.Holds j → ¬ s.release.Holds j
  stopping : ∀ i, s.release = .stop i → s.instActive i = true
  waiting : ∀ i, s.release = .wait i ∨ s.release = .asleep i → s.processor.Looping →
    s.running = true

theorem ReleasePc.signal_cases (pc : ReleasePc) (i : ℕ) :
    pc.signal i = pc ∧ pc ≠ .asleep i ∨ pc = .asleep i ∧ pc.signal i = .lock i := by
  unfold ReleasePc.signal
  by_cases hpc : pc = .asleep i
  · exact .inr ⟨hpc, if_pos hpc⟩
  · exact .inl ⟨if_neg hpc, hpc⟩

/-- A signal takes nothing from the release. -/
theorem Inv.signal (h : Inv s) (i : ℕ) : Inv { s with release := s.release.signal i } := by
  rcases s.release.signal_cases i with ⟨heq, -⟩ | ⟨-, heq⟩
  · rw [heq]
    exact h
  · rw [heq]
    exact ⟨h.begun, trivial, fun _ _ => id, fun k hk => by simp at hk,
      fun k hk => by simp at hk⟩

theorem Inv.init (h : system.init s) : Inv s := by
  have hbegun := begun_init h
  obtain ⟨next, -, rfl⟩ := h
  refine ⟨hbegun, trivial, fun _ _ => id, ?_, ?_⟩
  all_goals simp [State.initial]

/-- Nothing the processing thread does in its loop concerns the release, but for its signals. -/
theorem Inv.goes (h : Inv s) (hbegun : s'.Begun) (hrelease : s'.release = s.release)
    (hheld : ∀ j, s'.processor.Holds j → ¬ s.release.Holds j)
    (hactive : ∀ i, s.instActive i = true → s'.instActive i = true)
    (hloop : s'.processor.Looping → s'.running = true ∨
      s.processor.Looping ∧ s'.running = s.running) : Inv s' where
  begun := hbegun
  within := hrelease ▸ h.within
  apart j hj := hrelease ▸ hheld j hj
  stopping i hi := hactive i (h.stopping i (hrelease ▸ hi))
  waiting i hi hl := by
    rcases hloop hl with hrun | ⟨hlooping, heq⟩
    · exact hrun
    · rw [heq]
      exact h.waiting i (hrelease ▸ hi) hlooping

theorem Inv.step (h : Inv s) (hs : system.step s a = some s') : Inv s' := by
  have hbegun := begun_step h.begun hs
  cases step_effect hs with
  | locks j hpc hj hfree =>
      refine h.goes hbegun rfl ?_ (fun _ => id) False.elim
      rintro _ rfl
      exact hfree
  | enters j hpc hj =>
      exact h.goes hbegun rfl (fun _ => False.elim) (fun _ => id) fun _ => .inl rfl
  | activates j hpc =>
      refine h.goes hbegun rfl (fun _ => False.elim) (fun i hi => ?_) False.elim
      show Function.update s.instActive j true i = true
      rcases eq_or_ne i j with rfl | hij
      · simp
      · rwa [Function.update_of_ne hij]
  | checks hpc =>
      refine h.goes hbegun rfl (fun j hj => ?_) (fun _ => id)
        fun _ => .inr ⟨by rw [hpc]; trivial, rfl⟩
      cases hrun : s.running <;> simp [hrun, ProcessorPc.Holds] at hj
  | finishes hpc | reads count hpc | refuses left status hpc _ =>
      exact h.goes hbegun rfl (fun _ => False.elim) (fun _ => id)
        fun _ => .inr ⟨by rw [hpc]; trivial, rfl⟩
  | starts j status translated hpc hinactive =>
      refine (h.signal j).goes hbegun rfl (fun k hk => ?_) (fun _ => id) fun hl => ?_
      · by_cases hok : status = .success ∧ translated = .success <;>
          simp [hok, ProcessorPc.Holds] at hk
      · by_cases hok : status = .success ∧ translated = .success <;>
          simp [hok, ProcessorPc.Looping] at hl
  | creates j created detached hpc =>
      refine h.goes hbegun rfl (fun k hk => ?_) (fun _ => id) fun hl => ?_
      · by_cases hok : (created && detached) = true <;> simp [hok, ProcessorPc.Holds] at hk
      · by_cases hok : (created && detached) = true <;> simp [hok, ProcessorPc.Looping] at hl
  | accepts left hpc =>
      exact (h.signal _).goes hbegun rfl (fun _ => False.elim) (fun _ => id)
        fun _ => .inr ⟨by rw [hpc]; trivial, rfl⟩
  | halts left hpc => exact h.goes hbegun rfl (fun _ => False.elim) (fun _ => id) False.elim
  | begins i hpc | polls i hpc =>
      exact h.goes hbegun rfl h.apart (fun _ => id) fun hl => .inr ⟨hl, rfl⟩
  | calls hpc | clears hpc | stops i hpc | wakes i hpc | returns i hpc hi =>
      exact ⟨hbegun, trivial, fun _ _ => id, fun k hk => by simp at hk, fun k hk => by simp at hk⟩
  | takes i hpc hi hfree =>
      refine ⟨hbegun, hi, fun j hj heq => hfree (heq ▸ hj), ?_, ?_⟩
      all_goals simp
  | tells i hpc hactive cleared _ =>
      have hwithin := h.within
      rw [hpc] at hwithin
      refine ⟨hbegun, hwithin, fun j hj heq => h.apart j hj ?_, fun k hk => ?_, ?_⟩
      · rw [hpc]
        exact heq
      · obtain rfl : i = k := by simpa using hk
        exact hactive
      · simp
  | waits i hpc hinactive =>
      have hwithin := h.within
      rw [hpc] at hwithin
      refine ⟨hbegun, hwithin, fun j hj heq => h.apart j hj ?_, ?_, fun k _ hl => ?_⟩
      · rw [hpc]
        exact heq
      · simp
      · -- in the loop all instances are active
        have htrue := Begun.all_active h.begun hl i hwithin
        rw [hinactive] at htrue
        cases htrue
  | sleeps i hpc =>
      have hwithin := h.within
      rw [hpc] at hwithin
      refine ⟨hbegun, hwithin, fun _ _ => id, ?_, fun k _ hl => h.waiting i (.inl hpc) hl⟩
      simp

end Ipcl.HeQat.Shutdown
