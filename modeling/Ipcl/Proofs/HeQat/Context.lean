/-
One session, and a release that is final.

The context state has two values for a session that is up.  `acquire_qat_devices` knows
one of them: called while the state is running it initialises everything once more and
starts two further threads.  As long as nobody does that, no more than one scheduler and
one processing thread are started between two releases.

A release clears flags and joins nobody.  What it leaves behind does no harm exactly where
it is past its start and outside the sections that take requests: then the next test of
its flag ends it, provided that the flag still says so.  The processing thread has a flag
of its own session.  The scheduler tests the context state, so it must be gone before the
next session sets it again.

The run conditions say that, and every invariant below is derived from the list of what a
step can do.
-/
import Ipcl.HeQat.Context

namespace Ipcl.HeQat.Context

variable {ρ : Type} {s s' : State ρ} {a : Action ρ}

/-! ### What a step can do -/

/-- The actions of the API threads. -/
def Action.OfApi : Action ρ → Prop
  | .acquireBuffer _ | .releaseBuffer _ | .submit _ _ | .submitDirect _ => True
  | _ => False

inductive Effect (s : State ρ) : Action ρ → State ρ → Prop
  | already (startup : Startup) (hidle : s.caller = .idle) (hstate : s.contextState = .active) :
      Effect s (.acquire startup) { s with quiet := false, returned := some .success }
  | refused (startup : Startup) (hidle : s.caller = .idle) (hstate : s.contextState ≠ .active) :
      Effect s (.acquire startup) { s with quiet := false, returned := some .fail }
  | begins (hidle : s.caller = .idle) (hstate : s.contextState ≠ .active) :
      Effect s (.acquire .succeeds)
        { s with quiet := false, caller := .initialising, returned := none }
  | initialise (created : Bool) (hcaller : s.caller = .initialising) :
      Effect s (.initialise created) (s.initialised created)
  | activate (manager : Manager) (hcaller : s.caller = .initialised) :
      Effect s (.activate manager) (s.activated manager)
  | nothing (hidle : s.caller = .idle) (hstate : s.contextState = .inactive) :
      Effect s .release s.releaseReturns
  | stops (hidle : s.caller = .idle) (hstate : s.contextState ≠ .inactive) :
      Effect s .release s.flagsCleared
  | stopInstance (i : ℕ) (hcaller : s.caller = .stopping i) :
      Effect s .stopInstance { s with caller := .stopping (i + 1) }
  | deactivate (hcaller : s.caller = .stopping numActiveInstances) :
      Effect s .deactivate ({ s with contextState := .inactive }.releaseReturns)
  | starts (i : ℕ) (t : Scheduler ρ) (ht : s.schedulers[i]? = some t) (hpc : t.pc = .start) :
      Effect s (.scheduler i)
        ({ s with contextState := .running }.setScheduler i { t with pc := .check })
  | checks (i : ℕ) (t : Scheduler ρ) (ht : s.schedulers[i]? = some t) (hpc : t.pc = .check) :
      Effect s (.scheduler i) (s.setScheduler i
        { t with pc := if s.contextState = .inactive then .exited else .select })
  | selects (i : ℕ) (t t' : Scheduler ρ) (ht : s.schedulers[i]? = some t) (hpc : t.pc = .select)
      (hrel : t'.released = t.released) : Effect s (.scheduler i) (s.setScheduler i t')
  | extracts (i k : ℕ) (t t' : Scheduler ρ) (o : OutstandingBuffer ρ) (n : ℕ)
      (ht : s.schedulers[i]? = some t) (hpc : t.pc = .extract k)
      (hrel : t'.released = t.released) :
      Effect s (.scheduler i) ({ s with
        outstanding := o
        lateTakes := s.lateTakes + if t.released then n else 0 }.setScheduler i t')
  | submits (i : ℕ) (t : Scheduler ρ) (l : TaskRequestList ρ) (b : RequestBuffer ρ)
      (ht : s.schedulers[i]? = some t) (hpc : t.pc = .submit) :
      Effect s (.scheduler i)
        ({ s with heQatBuffer := b }.setScheduler i { t with list := l, pc := .check })
  | prepares (i : ℕ) (ok : Bool) (m : ℕ) (t t' : Processor ρ) (f : ℕ → Bool)
      (ht : s.processors[i]? = some t) (hpc : ∃ j, t.pc = .starting j ∨ t.pc = .started j)
      (hrel : t'.released = t.released) :
      Effect s (.processor i ok m) ({ s with instActive := f }.setProcessor i t')
  | tests (i : ℕ) (ok : Bool) (m : ℕ) (t : Processor ρ) (ht : s.processors[i]? = some t)
      (hpc : t.pc = .check) :
      Effect s (.processor i ok m)
        (s.setProcessor i { t with pc := if t.running then .read else .exited })
  | reads (i : ℕ) (ok : Bool) (m : ℕ) (t t' : Processor ρ) (b : RequestBuffer ρ) (n : ℕ)
      (ht : s.processors[i]? = some t) (hpc : t.pc = .read) (hrel : t'.released = t.released) :
      Effect s (.processor i ok m) ({ s with
        heQatBuffer := b
        lateTakes := s.lateTakes + if t.released then n else 0 }.setProcessor i t')
  | offloads (i : ℕ) (ok : Bool) (m : ℕ) (t : Processor ρ) (l : TaskRequestList ρ)
      (ht : s.processors[i]? = some t) (hpc : t.pc = .offload) :
      Effect s (.processor i ok m) (s.setProcessor i
        { t with list := l, pc := if ok then .check else .exited })
  | api (a : Action ρ) (o : OutstandingBuffer ρ) (b : RequestBuffer ρ) (hapi : a.OfApi) :
      Effect s a { s with outstanding := o, heQatBuffer := b }

/-- A section behind a wait has found its condition false. -/
theorem of_waitWhile {c : Prop} [Decidable c] {α : Type} {f : Unit → Section α} {x : α}
    (h : waitWhile c >>= f = .ok x) : ¬ c ∧ f () = .ok x := by
  by_cases hc : c
  · rw [waitWhile_blocked hc] at h
    cases h
  · rw [waitWhile_ok hc] at h
    exact ⟨hc, h⟩

theorem scheduler_effect {i : ℕ} {t : Scheduler ρ} (ht : s.schedulers[i]? = some t)
    (h : scheduleRequests s i t = .ok s') : Effect s (.scheduler i) s' := by
  unfold scheduleRequests at h
  split at h
  · next hpc =>
      cases h
      exact .starts i t ht hpc
  · next hpc =>
      cases h
      exact .checks i t ht hpc
  · next hpc =>
      obtain ⟨index, -, h⟩ := Section.bind_eq_ok.mp h
      cases h
      exact .selects i t _ ht hpc rfl
  · next k hpc =>
      obtain ⟨b, -, h⟩ := Section.bind_eq_ok.mp h
      obtain ⟨⟨l, b'⟩, -, h⟩ := Section.bind_eq_ok.mp h
      cases h
      exact .extracts i k t _ _ l.count ht hpc rfl
  · next hpc =>
      obtain ⟨⟨b, l⟩, -, h⟩ := Section.bind_eq_ok.mp h
      cases h
      exact .submits i t l b ht hpc
  · cases h

theorem processor_effect {i : ℕ} {t : Processor ρ} {ok : Bool} {m : ℕ}
    (ht : s.processors[i]? = some t) (h : startInstances s i t ok m = .ok s') :
    Effect s (.processor i ok m) s' := by
  unfold startInstances at h
  split at h
  · next j hpc =>
      by_cases hj : j < numActiveInstances
      · rw [if_pos hj] at h
        obtain ⟨-, h⟩ := of_waitWhile h
        cases h
        exact .prepares i ok m t _ s.instActive ht ⟨j, .inl hpc⟩ rfl
      · rw [if_neg hj] at h
        cases h
        exact .prepares i ok m t _ s.instActive ht ⟨j, .inl hpc⟩ rfl
  · next j hpc =>
      cases h
      exact .prepares i ok m t _ _ ht ⟨j, .inr hpc⟩ rfl
  · next hpc =>
      cases h
      exact .tests i ok m t ht hpc
  · next hpc =>
      obtain ⟨⟨l, b⟩, -, h⟩ := Section.bind_eq_ok.mp h
      cases h
      exact .reads i ok m t _ b l.count ht hpc rfl
  · next hpc =>
      cases h
      exact .offloads i ok m t _ ht hpc
  · cases h

theorem acquire_effect {startup : Startup} (h : acquire s startup = .ok s') :
    Effect s (.acquire startup) s' := by
  obtain ⟨hidle, h⟩ := of_waitWhile h
  have hidle := not_not.mp hidle
  change (if s.contextState = .active then _ else _) = _ at h
  by_cases hstate : s.contextState = .active
  · rw [if_pos hstate] at h
    cases h
    exact .already startup hidle hstate
  · rw [if_neg hstate] at h
    cases startup with
    | succeeds =>
        cases h
        exact .begins hidle hstate
    | memFails | serviceFails | noEndpoint =>
        cases h
        exact .refused _ hidle hstate

theorem release_effect (h : release s = .ok s') : Effect s .release s' := by
  obtain ⟨hidle, h⟩ := of_waitWhile h
  have hidle := not_not.mp hidle
  by_cases hstate : s.contextState = .inactive
  · rw [if_pos hstate] at h
    cases h
    exact .nothing hidle hstate
  · rw [if_neg hstate] at h
    cases h
    exact .stops hidle hstate

theorem step_effect (hs : (system ρ).step s a = some s') : Effect s a s' := by
  have h : step s a = .ok s' := Section.toOption_eq_some.mp hs
  cases a with
  | acquire startup => exact acquire_effect h
  | initialise created =>
      obtain ⟨hcaller, h⟩ := of_waitWhile h
      cases h
      exact .initialise created (not_not.mp hcaller)
  | activate manager =>
      obtain ⟨hcaller, h⟩ := of_waitWhile h
      cases h
      exact .activate manager (not_not.mp hcaller)
  | release => exact release_effect h
  | stopInstance =>
      simp only [step, stopInstance] at h
      split at h
      · next i hcaller =>
          obtain ⟨-, h⟩ := of_waitWhile h
          cases h
          exact .stopInstance i hcaller
      · cases h
  | deactivate =>
      obtain ⟨hcaller, h⟩ := of_waitWhile h
      cases h
      exact .deactivate (not_not.mp hcaller)
  | scheduler i =>
      simp only [step] at h
      split at h
      · next t ht => exact scheduler_effect ht h
      · cases h
  | processor i ok m =>
      simp only [step] at h
      split at h
      · next t ht => exact processor_effect ht h
      · cases h
  | acquireBuffer id =>
      obtain ⟨⟨_, o⟩, -, h⟩ := Section.bind_eq_ok.mp h
      cases h
      exact .api _ o s.heQatBuffer trivial
  | releaseBuffer id =>
      obtain ⟨o, -, h⟩ := Section.bind_eq_ok.mp h
      cases h
      exact .api _ o s.heQatBuffer trivial
  | submit id r =>
      obtain ⟨b, -, h⟩ := Section.bind_eq_ok.mp h
      obtain ⟨b', -, h⟩ := Section.bind_eq_ok.mp h
      cases h
      exact .api _ _ s.heQatBuffer trivial
  | submitDirect r =>
      obtain ⟨b, -, h⟩ := Section.bind_eq_ok.mp h
      cases h
      exact .api _ s.outstanding b trivial

/-! ### One session -/

/-- Nobody calls acquire while the state is running. -/
def NotWhileRunning (s : State ρ) : Action ρ → Prop
  | .acquire _ => s.contextState ≠ .running
  | _ => True

instance : ∀ (s : State ρ) (a : Action ρ), Decidable (NotWhileRunning s a) := by
  intro s a
  cases a <;> unfold NotWhileRunning <;> infer_instance

/-- What a step should do to the session: acquire leaves one that is up as it is, and there
are no more threads than one session has. -/
structure OneSession (s : State ρ) (a : Action ρ) (s' : State ρ) : Prop where
  unchanged : ∀ startup, a = .acquire startup →
    s.contextState = .active ∨ s.contextState = .running →
      s' = { s with quiet := false, returned := some .success }
  scheduler : s'.schedulersStarted ≤ 1
  processor : s'.processorsStarted ≤ 1

/-- The threads started since the last release, by the progress of the call that starts
them. -/
structure Counted (s : State ρ) : Prop where
  up_or_down : s.contextState = .active ∨ s.contextState = .running ∨ s.contextState = .inactive
  scheduler : s.schedulersStarted ≤ 1
  processor : s.processorsStarted ≤ 1
  initialising : s.caller = .initialising → s.schedulersStarted = 0 ∧ s.processorsStarted = 0
  initialised : s.caller = .initialised → s.schedulersStarted = 0
  down : s.caller = .idle → s.contextState = .inactive →
    s.schedulersStarted = 0 ∧ s.processorsStarted = 0

theorem Counted.initial : Counted (State.initial : State ρ) where
  up_or_down := .inr (.inr rfl)
  scheduler := Nat.zero_le 1
  processor := Nat.zero_le 1
  initialising := nofun
  initialised := nofun
  down _ _ := ⟨rfl, rfl⟩

theorem Counted.step (h : Counted s) (hok : NotWhileRunning s a)
    (hs : (system ρ).step s a = some s') : Counted s' := by
  obtain ⟨hup, hsch, hproc, hing, hed, hdown⟩ := h
  cases step_effect hs with
  | already | refused => exact ⟨hup, hsch, hproc, hing, hed, hdown⟩
  | begins hidle hstate =>
      have hin := (hup.resolve_left hstate).resolve_left hok
      exact ⟨hup, hsch, hproc, fun _ => hdown hidle hin, nofun, nofun⟩
  | initialise created hcaller =>
      obtain ⟨h0, h1⟩ := hing hcaller
      refine ⟨hup, hsch, ?_, nofun, fun _ => h0, nofun⟩
      show s.processorsStarted + (if created then 1 else 0) ≤ 1
      split_ifs <;> omega
  | activate manager hcaller =>
      have h0 := hed hcaller
      cases manager with
      | created | detachFails =>
          refine ⟨.inl rfl, ?_, hproc, nofun, nofun, nofun⟩
          show s.schedulersStarted + 1 ≤ 1
          omega
      | createFails => exact ⟨.inl rfl, hsch, hproc, nofun, nofun, nofun⟩
  | nothing hidle hstate =>
      exact ⟨hup, Nat.zero_le 1, Nat.zero_le 1, nofun, nofun, fun _ _ => ⟨rfl, rfl⟩⟩
  | stops hidle hstate =>
      unfold State.flagsCleared
      cases s.heQatConfig with
      | none => exact ⟨hup, hsch, hproc, nofun, nofun, nofun⟩
      | some c => exact ⟨hup, hsch, hproc, nofun, nofun, nofun⟩
  | stopInstance i hcaller => exact ⟨hup, hsch, hproc, nofun, nofun, nofun⟩
  | deactivate hcaller =>
      exact ⟨.inr (.inr rfl), Nat.zero_le 1, Nat.zero_le 1, nofun, nofun, fun _ _ => ⟨rfl, rfl⟩⟩
  | starts i t ht hpc => exact ⟨.inr (.inl rfl), hsch, hproc, hing, hed, nofun⟩
  | checks | selects | extracts | submits | prepares | tests | reads | offloads | api =>
      exact ⟨hup, hsch, hproc, hing, hed, hdown⟩

/-- **As long as nobody acquires while the state is running, there is one session.** -/
theorem one_session (h : (system ρ).ReachableIf NotWhileRunning s) (hok : NotWhileRunning s a)
    (hs : (system ρ).step s a = some s') : OneSession s a s' := by
  have hcount : Counted s := h.invariant (fun s hinit => by cases hinit; exact Counted.initial)
    fun _ _ _ h hok hs => h.step hok hs
  have hcount' := hcount.step hok hs
  refine ⟨?_, hcount'.scheduler, hcount'.processor⟩
  rintro startup rfl hup
  have hactive : s.contextState = .active := hup.resolve_right hok
  cases step_effect hs with
  | already => rfl
  | refused _ _ hstate => exact absurd hactive hstate
  | begins _ hstate => exact absurd hactive hstate
  | api _ _ _ hapi => cases hapi

/-- A second acquire before the scheduler has started. -/
theorem one_session_second : ∃ s s' : State ℕ,
    (system ℕ).step s (.acquire .succeeds) = some s' ∧ OneSession s (.acquire .succeeds) s' := by
  obtain ⟨s, hrun⟩ := Option.isSome_iff_exists.mp (show ((system ℕ).runIf NotWhileRunning
    State.initial [.acquire .succeeds, .initialise true, .activate .created]).isSome by rfl)
  have hinit : (system ℕ).ReachableIf NotWhileRunning State.initial := .init rfl
  have hreach := hinit.runIf hrun
  cases hrun
  exact ⟨_, _, rfl, one_session hreach (by unfold NotWhileRunning; decide) rfl⟩

/-- A second acquire when the scheduler has started: there are two of each thread. -/
theorem not_one_session_running : ¬ ∀ (s : State ℕ) (a : Action ℕ) (s' : State ℕ),
    (system ℕ).Reachable s → (system ℕ).step s a = some s' → OneSession s a s' := by
  intro hall
  obtain ⟨s, hrun⟩ := Option.isSome_iff_exists.mp (show ((system ℕ).run State.initial
    [.acquire .succeeds, .initialise true, .activate .created, .scheduler 0, .acquire .succeeds,
      .initialise true]).isSome by rfl)
  have hinit : (system ℕ).Reachable State.initial := .init rfl
  have hreach := hinit.run (fun _ _ _ => trivial) hrun
  cases hrun
  have hsession := hall _ (.activate .created) _ hreach rfl
  exact absurd hsession.scheduler (by decide)

/-! ### A release is final -/

/-- After a release has returned the state is inactive until the next acquire, and no thread
of its session has taken a request. -/
structure ReleaseIsFinal (s : State ρ) : Prop where
  inactive : s.quiet = true → s.contextState = .inactive
  none_late : s.lateTakes = 0

/-- A scheduler that has started and takes no request before its next test. -/
def Scheduler.Settled (t : Scheduler ρ) : Prop :=
  t.pc = .check ∨ t.pc = .submit ∨ t.pc = .exited

/-- A processing thread that has started and takes no request before its next test, which
ends it. -/
def Processor.Settled (t : Processor ρ) : Prop :=
  (t.pc = .check ∨ t.pc = .offload) ∧ t.running = false ∨ t.pc = .exited

/-- All background threads are settled. -/
def State.Settled (s : State ρ) : Prop :=
  (∀ t ∈ s.schedulers, t.Settled) ∧ ∀ t ∈ s.processors, t.Settled

/-- A release returns when the threads are settled, and a session starts when the schedulers
of the released ones have gone. -/
def Orderly (s : State ρ) : Action ρ → Prop
  | .release => s.contextState = .inactive → s.Settled
  | .deactivate => s.Settled
  | .activate _ => ∀ t ∈ s.schedulers, t.released = true → t.pc = .exited
  | _ => True

instance (t : Scheduler ρ) : Decidable t.Settled := by
  unfold Scheduler.Settled
  infer_instance

instance (t : Processor ρ) : Decidable t.Settled := by
  unfold Processor.Settled
  infer_instance

instance (s : State ρ) : Decidable s.Settled := by
  unfold State.Settled
  infer_instance

instance : ∀ (s : State ρ) (a : Action ρ), Decidable (Orderly s a) := by
  intro s a
  cases a <;> unfold Orderly <;> infer_instance

/-- Threads of released sessions are settled and stay so: the state is inactive while one of
their schedulers is left, and there is no other that would set it. -/
structure Inv (s : State ρ) : Prop where
  none_late : s.lateTakes = 0
  idle : s.quiet = true → s.caller = .idle
  quiet : s.quiet = true → s.contextState = .inactive ∧ ∀ t ∈ s.schedulers, t.released = true
  scheduler : ∀ t ∈ s.schedulers, t.released = true → t.Settled
  left : ∀ t ∈ s.schedulers, t.released = true → t.pc ≠ .exited →
    s.contextState = .inactive ∧ ∀ u ∈ s.schedulers, u.released = true
  processor : ∀ t ∈ s.processors, t.released = true → t.Settled

theorem Inv.initial : Inv (State.initial : State ρ) where
  none_late := rfl
  idle := nofun
  quiet := nofun
  scheduler := nofun
  left := nofun
  processor := nofun

section
variable {i : ℕ}

/-- Replacing one scheduler by one that belongs to a released session exactly if it did. -/
theorem Inv.setScheduler {t t' : Scheduler ρ} (h : Inv s) (ht : s.schedulers[i]? = some t)
    (hrel : t'.released = t.released) (hset : t.released = true → t'.Settled)
    (hleft : t.pc = .exited → t'.pc = .exited) : Inv (s.setScheduler i t') := by
  have hmem : t ∈ s.schedulers := List.mem_of_getElem? ht
  have hall : (∀ u ∈ s.schedulers, u.released = true) →
      ∀ u ∈ (s.setScheduler i t').schedulers, u.released = true := by
    intro hold u hu
    rcases List.mem_or_eq_of_mem_set hu with hu | rfl
    · exact hold u hu
    · rw [hrel]
      exact hold t hmem
  refine ⟨h.none_late, h.idle, ?_, ?_, ?_, h.processor⟩
  · intro hquiet
    exact ⟨(h.quiet hquiet).1, hall (h.quiet hquiet).2⟩
  · intro u hu hu'
    rcases List.mem_or_eq_of_mem_set hu with hu | rfl
    · exact h.scheduler u hu hu'
    · exact hset (hrel ▸ hu')
  · intro u hu hu' hpc
    rcases List.mem_or_eq_of_mem_set hu with hu | rfl
    · exact ⟨(h.left u hu hu' hpc).1, hall (h.left u hu hu' hpc).2⟩
    · have hold := h.left t hmem (hrel ▸ hu') fun hexit => hpc (hleft hexit)
      exact ⟨hold.1, hall hold.2⟩

theorem Inv.setProcessor {t' : Processor ρ} (h : Inv s)
    (hset : t'.released = true → t'.Settled) : Inv (s.setProcessor i t') := by
  refine ⟨h.none_late, h.idle, h.quiet, h.scheduler, h.left, ?_⟩
  intro u hu hu'
  rcases List.mem_or_eq_of_mem_set hu with hu | rfl
  · exact h.processor u hu hu'
  · exact hset hu'

/-- A thread that has not settled belongs to the present session. -/
theorem Inv.not_released {t : Scheduler ρ} (h : Inv s) (ht : s.schedulers[i]? = some t)
    (hpc : ¬ t.Settled) : t.released = false := by
  by_contra hrel
  exact hpc (h.scheduler t (List.mem_of_getElem? ht) (by simpa using hrel))

theorem Inv.not_released' {t : Processor ρ} (h : Inv s) (ht : s.processors[i]? = some t)
    (hpc : ¬ t.Settled) : t.released = false := by
  by_contra hrel
  exact hpc (h.processor t (List.mem_of_getElem? ht) (by simpa using hrel))

end

/-- A release that returns over settled threads. -/
theorem Inv.releaseReturns (hlate : s.lateTakes = 0) (hstate : s.contextState = .inactive)
    (hset : s.Settled) : Inv s.releaseReturns := by
  have hall : ∀ t ∈ s.releaseReturns.schedulers, t.released = true := by
    intro _ ht
    obtain ⟨u, -, rfl⟩ := List.mem_map.mp ht
    rfl
  refine ⟨hlate, fun _ => rfl, fun _ => ⟨hstate, hall⟩, ?_, fun _ _ _ _ => ⟨hstate, hall⟩, ?_⟩
  · intro _ ht _
    obtain ⟨u, hu, rfl⟩ := List.mem_map.mp ht
    exact hset.1 u hu
  · intro t ht _
    obtain ⟨u, hu, rfl⟩ := List.mem_map.mp ht
    exact hset.2 u hu

/-- A new session, when the schedulers of the released ones have gone. -/
theorem Inv.activated (h : Inv s)
    (hgone : ∀ t ∈ s.schedulers, t.released = true → t.pc = .exited) (hquiet : ¬ s.quiet = true)
    (manager : Manager) : Inv (s.activated manager) := by
  have hleft : ∀ t ∈ s.schedulers, t.released = true → t.pc ≠ .exited → False :=
    fun t ht hrel hpc => hpc (hgone t ht hrel)
  cases manager with
  | createFails =>
      exact ⟨h.none_late, fun hq => absurd hq hquiet, fun hq => absurd hq hquiet, h.scheduler,
        fun t ht hrel hpc => (hleft t ht hrel hpc).elim, h.processor⟩
  | created | detachFails =>
      refine ⟨h.none_late, fun hq => absurd hq hquiet, fun hq => absurd hq hquiet, ?_, ?_,
        h.processor⟩
      · intro t ht hrel
        rcases List.mem_append.mp ht with ht | ht
        · exact h.scheduler t ht hrel
        · rw [List.mem_singleton.mp ht] at hrel
          cases hrel
      · intro t ht hrel hpc
        rcases List.mem_append.mp ht with ht | ht
        · exact (hleft t ht hrel hpc).elim
        · rw [List.mem_singleton.mp ht] at hrel
          cases hrel

/-- Clearing the flags settles nobody, and unsettles nobody. -/
theorem Inv.flagsCleared (h : Inv s) (hquiet : ¬ s.quiet = true) : Inv s.flagsCleared := by
  unfold State.flagsCleared
  cases s.heQatConfig with
  | none =>
      exact ⟨h.none_late, fun hq => absurd hq hquiet, h.quiet, h.scheduler, h.left, h.processor⟩
  | some c =>
      refine ⟨h.none_late, fun hq => absurd hq hquiet, h.quiet, h.scheduler, h.left, ?_⟩
      intro t ht hrel
      obtain ⟨j, hj, rfl⟩ := List.getElem_of_mem ht
      rw [List.getElem_modify] at hrel ⊢
      have hj' : j < s.processors.length := by rwa [List.length_modify] at hj
      have hset := h.processor s.processors[j] (List.getElem_mem hj')
      by_cases hc : c = j
      · rw [if_pos hc] at hrel ⊢
        rcases hset hrel with ⟨hpc, -⟩ | hpc
        · exact .inl ⟨hpc, rfl⟩
        · exact .inr hpc
      · rw [if_neg hc] at hrel ⊢
        exact hset hrel

theorem Inv.step (h : Inv s) (hok : Orderly s a) (hs : (system ρ).step s a = some s') :
    Inv s' := by
  have hbusy : s.caller ≠ .idle → ¬ s.quiet = true := fun hcaller hquiet => hcaller (h.idle hquiet)
  cases step_effect hs with
  | already | refused | begins =>
      exact ⟨h.none_late, nofun, nofun, h.scheduler, h.left, h.processor⟩
  | initialise created hcaller =>
      have hquiet := hbusy (by rw [hcaller]; decide)
      refine ⟨h.none_late, fun hq => absurd hq hquiet, h.quiet, h.scheduler, h.left, ?_⟩
      intro t ht hrel
      rcases List.mem_append.mp ht with ht | ht
      · exact h.processor t ht hrel
      · rw [List.mem_singleton.mp ht] at hrel
        cases hrel
  | activate manager hcaller =>
      have hquiet := hbusy (by rw [hcaller]; decide)
      exact h.activated hok hquiet manager
  | nothing hidle hstate => exact Inv.releaseReturns h.none_late hstate (hok hstate)
  | stops hidle hstate =>
      exact h.flagsCleared fun hq => hstate (h.quiet hq).1
  | stopInstance i hcaller =>
      have hquiet := hbusy (by rw [hcaller]; simp)
      exact ⟨h.none_late, fun hq => absurd hq hquiet, h.quiet, h.scheduler, h.left, h.processor⟩
  | deactivate hcaller => exact Inv.releaseReturns h.none_late rfl hok
  | starts i t ht hpc =>
      have hnew := h.not_released ht (by simp [Scheduler.Settled, hpc])
      have hmem := List.mem_of_getElem? ht
      refine ⟨h.none_late, h.idle, fun hq => ?_, fun u hu hrel => ?_, fun u hu hrel hpc' => ?_,
        h.processor⟩
      · have := (h.quiet hq).2 t hmem
        rw [hnew] at this
        cases this
      · rcases List.mem_or_eq_of_mem_set hu with hu | rfl
        · exact h.scheduler u hu hrel
        · exact .inl rfl
      · -- a scheduler that is left behind would leave no room for this one
        rcases List.mem_or_eq_of_mem_set hu with hu | rfl
        · have := (h.left u hu hrel hpc').2 t hmem
          rw [hnew] at this
          cases this
        · rw [hnew] at hrel
          cases hrel
  | checks i t ht hpc =>
      refine h.setScheduler ht rfl (fun hrel => ?_) (by simp [hpc])
      have hstate := (h.left t (List.mem_of_getElem? ht) hrel (by simp [hpc])).1
      simp [Scheduler.Settled, hstate]
  | selects i t t' ht hpc hrel =>
      have hnew := h.not_released ht (by simp [Scheduler.Settled, hpc])
      exact h.setScheduler ht hrel (by simp [hnew]) (by simp [hpc])
  | extracts i k t t' o n ht hpc hrel =>
      have hnew := h.not_released ht (by simp [Scheduler.Settled, hpc])
      refine Inv.setScheduler ⟨?_, h.idle, h.quiet, h.scheduler, h.left, h.processor⟩ ht hrel
        (by simp [hnew]) (by simp [hpc])
      simpa [hnew] using h.none_late
  | submits i t l b ht hpc =>
      refine Inv.setScheduler ⟨h.none_late, h.idle, h.quiet, h.scheduler, h.left, h.processor⟩ ht
        rfl (fun _ => .inl rfl) (by simp [hpc])
  | prepares i ok m t t' f ht hpc hrel =>
      have hnew := h.not_released' ht (by
        rintro (⟨hset | hset, -⟩ | hset) <;> obtain ⟨j, hpc | hpc⟩ := hpc <;> rw [hset] at hpc <;>
          cases hpc)
      exact Inv.setProcessor ⟨h.none_late, h.idle, h.quiet, h.scheduler, h.left, h.processor⟩
        (by simp [hrel, hnew])
  | tests i ok m t ht hpc =>
      refine h.setProcessor fun hrel => ?_
      have hset := h.processor t (List.mem_of_getElem? ht) hrel
      simp only [Processor.Settled, hpc] at hset ⊢
      simp at hset
      simp [hset]
  | reads i ok m t t' b n ht hpc hrel =>
      have hnew := h.not_released' ht (by simp [Processor.Settled, hpc])
      refine Inv.setProcessor ⟨?_, h.idle, h.quiet, h.scheduler, h.left, h.processor⟩
        (by simp [hrel, hnew])
      simpa [hnew] using h.none_late
  | offloads i ok m t l ht hpc =>
      refine h.setProcessor fun hrel => ?_
      have hset := h.processor t (List.mem_of_getElem? ht) hrel
      simp [Processor.Settled, hpc] at hset
      cases ok <;> simp [Processor.Settled, hset]
  | api a o b hapi =>
      exact ⟨h.none_late, h.idle, h.quiet, h.scheduler, h.left, h.processor⟩

/-- **In an orderly run a release is final.** -/
theorem release_is_final (h : (system ρ).ReachableIf Orderly s) : ReleaseIsFinal s := by
  have hinv : Inv s := h.invariant (fun s hinit => by cases hinit; exact Inv.initial)
    fun _ _ _ h hok hs => h.step hok hs
  exact ⟨fun hq => (hinv.quiet hq).1, hinv.none_late⟩

/-- A processing thread that starts all instances and its loop. -/
def startUp (i : ℕ) : List (Action ℕ) :=
  List.replicate (2 * numActiveInstances + 1) (.processor i true 1)

/-- A session that has been started. -/
def sessionUp : List (Action ℕ) :=
  [.acquire .succeeds, .initialise true, .activate .created] ++ startUp 0

/-- The rounds of `stop_perform_op` and the end of the release. -/
def sessionDown : List (Action ℕ) :=
  .release :: List.replicate numActiveInstances .stopInstance ++ [.deactivate]

/-- Both threads are at their tests when the release returns. -/
theorem release_is_final_settled : ∃ s : State ℕ,
    (system ℕ).runIf Orderly State.initial (sessionUp ++ .scheduler 0 :: sessionDown) = some s ∧
      ReleaseIsFinal s := by
  obtain ⟨s, hrun⟩ := Option.isSome_iff_exists.mp (show ((system ℕ).runIf Orderly
    State.initial (sessionUp ++ .scheduler 0 :: sessionDown)).isSome by decide +kernel)
  have hinit : (system ℕ).ReachableIf Orderly State.initial := .init rfl
  exact ⟨s, hrun, release_is_final (hinit.runIf hrun)⟩

/-- A scheduler that starts after the release sets the state to running, and one that waits
for requests takes them from the rings of the next session. -/
theorem not_release_is_final :
    (¬ ∀ s : State ℕ, (system ℕ).Reachable s → s.quiet = true → s.contextState = .inactive) ∧
      ¬ ∀ s : State ℕ, (system ℕ).Reachable s → s.lateTakes = 0 := by
  constructor
  · intro hall
    obtain ⟨s, hreach, hs⟩ := (system ℕ).reachable_of_map_run
      (f := fun s => (s.quiet, s.contextState)) (x := (true, .running)) rfl
      (show ((system ℕ).run State.initial (sessionUp ++ sessionDown ++ [.scheduler 0])).map _
        = _ by decide +kernel)
    obtain ⟨hquiet, hstate⟩ := Prod.mk.injEq _ _ _ _ ▸ hs
    have := hall s hreach hquiet
    rw [hstate] at this
    cases this
  · intro hall
    obtain ⟨s, hreach, hs⟩ := (system ℕ).reachable_of_map_run
      (f := State.lateTakes) (x := 1) rfl
      (show ((system ℕ).run State.initial (sessionUp ++ [.scheduler 0, .scheduler 0] ++ sessionDown
        ++ [.acquire .succeeds, .initialise true, .activate .created, .acquireBuffer 0,
          .submit 0 7, .scheduler 0, .scheduler 0])).map _ = _ by decide +kernel)
    have := hall s hreach
    rw [hs] at this
    cases this

end Ipcl.HeQat.Context
