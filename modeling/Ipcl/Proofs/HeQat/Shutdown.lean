/-
When a release returns.

A release that finds an instance inactive goes to sleep, and the processing thread marks the
instance as active without a signal.  So what the release can hope for depends on where the
processing thread is: it has still to signal the variable, or it will come to its loop, where the
variable is signalled for some request.  In no other case can the release return, unless all
instances that are left are active and it is awake.

Requests that go on being accepted wake it: each of them signals the next variable, and none of
them is signalled before all instances are active.

A polling thread sets its own flag when it begins.  One that has been created, but has not begun
before the release clears its flag, polls for ever.
-/
import Ipcl.Proofs.HeQat.Startup

namespace Ipcl.HeQat.Shutdown

variable {s s' : State} {a : Action}

/-! ### When the release can return -/

def State.Alive (s : State) : Prop := s.processor ≠ .exited

def State.ActiveFrom (s : State) (i : ℕ) : Prop :=
  ∀ k, i ≤ k → k < numActiveInstances → s.instActive k = true

/-- Asleep, or bound to sleep, the release needs a thread that signals its variable; awake, one
that starts the instances that are left.  With `requests` there are some that the device accepts
from now on. -/
def State.CanReturn (s : State) (requests : Bool) : Prop :=
  match s.release with
  | .returned => True
  | .wait i | .asleep i => s.Alive ∧ (requests = true ∨ s.processor.signalled ≤ i)
  | .lock i | .test i | .stop i => s.Alive ∨ s.ActiveFrom i
  | .idle | .clear => s.Alive ∨ s.ActiveFrom 0

/-- The actions that take no luck, and no more requests than there are. -/
def Action.Allowed (requests : Bool) : Action → Prop
  | .offload .success => requests = true
  | .wake => False
  | _ => True

variable {requests : Bool}

theorem State.CanReturn.hope (hc : s.CanReturn requests) {i : ℕ}
    (hi : s.release = .wait i ∨ s.release = .asleep i) :
    s.Alive ∧ (requests = true ∨ s.processor.signalled ≤ i) := by
  rcases hi with hi | hi
  all_goals
    rw [State.CanReturn, hi] at hc
    exact hc

theorem can_return_of_alive (halive : s.Alive)
    (h : ∀ i, s.release = .wait i ∨ s.release = .asleep i →
      requests = true ∨ s.processor.signalled ≤ i) : s.CanReturn requests := by
  unfold State.CanReturn
  split
  · trivial
  · next i hi => exact ⟨halive, h i (.inl hi)⟩
  · next i hi => exact ⟨halive, h i (.inr hi)⟩
  all_goals exact .inl halive

/-- A step of the processing thread brings no hope but that of its signal. -/
theorem State.CanReturn.back (hc : s'.CanReturn requests) (halive : s.Alive)
    (hrelease : s'.release = s.release)
    (hle : s'.Alive → s.processor.signalled ≤ s'.processor.signalled) : s.CanReturn requests := by
  refine can_return_of_alive halive fun i hi => ?_
  obtain ⟨halive', hhope⟩ := hc.hope (hrelease.symm ▸ hi)
  exact hhope.imp_right (hle halive').trans

theorem CanReturn.step_back (h : Inv s) (hallowed : a.Allowed requests)
    (hs : system.step s a = some s') (hc : s'.CanReturn requests) : s.CanReturn requests := by
  have hwithin := h.begun.within
  cases step_effect hs with
  | locks j hpc _ _ | activates j hpc | finishes hpc | reads _ hpc | refuses _ _ hpc _ =>
      refine hc.back ?_ rfl fun _ => ?_
      · simp [State.Alive, hpc]
      · rw [hpc]
        exact le_rfl
  | enters j hpc _ =>
      refine hc.back ?_ rfl fun _ => ?_
      · simp [State.Alive, hpc]
      · rwa [hpc] at hwithin ⊢
  | checks hpc =>
      refine hc.back ?_ rfl fun _ => ?_
      · simp [State.Alive, hpc]
      · cases s.running <;> simp [hpc, ProcessorPc.signalled]
  | halts left hpc =>
      refine hc.back ?_ rfl fun halive => absurd rfl halive
      simp [State.Alive, hpc]
  | creates j created detached hpc =>
      refine hc.back ?_ rfl fun halive => ?_
      · simp [State.Alive, hpc]
      · rw [hpc]
        by_cases hok : (created && detached) = true
        · simp [hok, ProcessorPc.signalled]
        · simp [State.Alive, hok] at halive
  | starts j status translated hpc hinactive =>
      have halive : s.Alive := by simp [State.Alive, hpc]
      rcases s.release.signal_cases j with ⟨heq, -⟩ | ⟨heq, -⟩
      · refine hc.back halive heq fun halive' => ?_
        rw [hpc]
        by_cases hok : status = .success ∧ translated = .success
        · simp [hok, ProcessorPc.signalled]
        · simp [State.Alive, hok] at halive'
      · refine can_return_of_alive halive fun i hi => .inr ?_
        obtain rfl : j = i := by simpa [heq] using hi
        rw [hpc]
        exact le_rfl
  | accepts left hpc =>
      exact can_return_of_alive (by simp [State.Alive, hpc]) fun i _ => .inl hallowed
  | calls hpc | clears hpc | takes i hpc _ _ | tells i hpc _ _ _ | sleeps i hpc =>
      rw [State.CanReturn, hpc]
      exact hc
  | returns i hpc hi =>
      rw [State.CanReturn, hpc]
      exact .inr fun k hik hk => absurd (hi.trans hik) (not_le.mpr hk)
  | waits i hpc _ =>
      rw [State.CanReturn, hpc]
      exact .inl hc.1
  | stops i hpc =>
      rw [State.CanReturn, hpc]
      refine hc.imp_right fun hfrom k hik hk => ?_
      rcases hik.eq_or_lt with rfl | hlt
      · exact h.stopping i hpc
      · exact hfrom k hlt hk
  | wakes i hpc => exact hallowed.elim
  | begins i hpc | polls i hpc => exact hc

/-! ### Coming nearer to its return -/

/-- How many accepted requests it takes until the variable of instance `i` is signalled. -/
def distance (next i : ℕ) : ℕ := if next < i then i - next else i + numActiveInstances - next

theorem distance_le {next i : ℕ} (hi : i < numActiveInstances) :
    distance next i ≤ numActiveInstances := by
  unfold distance
  split <;> omega

theorem distance_pos {next i : ℕ} (hnext : next < numActiveInstances) : 0 < distance next i := by
  unfold distance
  split <;> omega

theorem distance_next {next i : ℕ} (hnext : next < numActiveInstances) (hi : i < numActiveInstances)
    (hne : (next + 1) % numActiveInstances ≠ i) :
    distance ((next + 1) % numActiveInstances) i < distance next i := by
  rcases (Nat.succ_le_of_lt hnext).eq_or_lt with heq | hlt
  · have hmod : (next + 1) % numActiveInstances = 0 := by rw [← heq, Nat.mod_self]
    rw [hmod] at hne ⊢
    unfold distance
    split_ifs <;> omega
  · rw [Nat.mod_eq_of_lt hlt] at hne ⊢
    unfold distance
    split_ifs <;> omega

/-- How many the release needs. -/
def ReleasePc.away (pc : ReleasePc) (next : ℕ) : ℕ :=
  match pc with
  | .wait i | .asleep i => distance next i
  | _ => 0

theorem ReleasePc.Within.away_le {pc : ReleasePc} (h : pc.Within) (next : ℕ) :
    pc.away next ≤ numActiveInstances := by
  cases pc with
  | wait i | asleep i => exact distance_le h
  | _ => exact Nat.zero_le _

/-- What the processing thread has to do for the release. -/
def ProcessorPc.work (pc : ProcessorPc) (away : ℕ) : ℕ :=
  match pc with
  | .lock j => 4 * (2 * numActiveInstances - j) + 4
  | .test j => 4 * (2 * numActiveInstances - j) + 3
  | .create j => 4 * (2 * numActiveInstances - j) + 2
  | .activate j => 4 * (2 * numActiveInstances - j) + 1
  | .offload 0 => 4 * away + 3
  | .check => 4 * away + 2
  | .read => 4 * away + 1
  | .offload (_ + 1) => 4 * away
  | .exited => 0

/-- What the release has to do. -/
def ReleasePc.work : ReleasePc → ℕ
  | .idle => 5 * numActiveInstances + 6
  | .clear => 5 * numActiveInstances + 5
  | .lock i => 5 * (numActiveInstances - i) + 4
  | .test i => 5 * (numActiveInstances - i) + 3
  | .wait i => 5 * (numActiveInstances - i) + 2
  | .asleep i => 5 * (numActiveInstances - i) + 1
  | .stop i => 5 * (numActiveInstances - i)
  | .returned => 0

/-- The release goes on, or else the processing thread does. -/
def State.rank (s : State) : ℕ ×ₗ ℕ :=
  toLex (s.processor.work (s.release.away s.nextInstance), s.release.work)

/-- There is a step to a state that is nearer. -/
def Nearer (requests : Bool) (s : State) : Prop :=
  ∃ a s', a.Allowed requests ∧ system.step s a = some s' ∧ s'.CanReturn requests ∧
    s'.rank < s.rank

theorem rank_lt_of_processor
    (h : s'.processor.work (s'.release.away s'.nextInstance)
      < s.processor.work (s.release.away s.nextInstance)) : s'.rank < s.rank :=
  Prod.Lex.toLex_lt_toLex.mpr (.inl h)

theorem rank_lt_of_release
    (h : s'.processor.work (s'.release.away s'.nextInstance)
      = s.processor.work (s.release.away s.nextInstance))
    (hlt : s'.release.work < s.release.work) : s'.rank < s.rank :=
  Prod.Lex.toLex_lt_toLex.mpr (.inr ⟨h, hlt⟩)

def ProcessorPc.Starting : ProcessorPc → Prop
  | .lock _ | .test _ | .create _ | .activate _ => True
  | _ => False

theorem ProcessorPc.Starting.work_eq {pc : ProcessorPc} (h : pc.Starting) (d d' : ℕ) :
    pc.work d = pc.work d' := by
  cases pc with
  | lock j | test j | create j | activate j => rfl
  | _ => exact h.elim

theorem ProcessorPc.Looping.signalled_eq {pc : ProcessorPc} (h : pc.Looping) :
    pc.signalled = numActiveInstances := by
  cases pc with
  | check | read | offload left => rfl
  | _ => exact h.elim

/-- In its start-up the processing thread goes on, if the release does not hold the mutex it
needs. -/
theorem startup_nearer (h : Inv s) (hc : s.CanReturn requests) (hstart : s.processor.Starting)
    (hfree : ∀ j, s.processor = .lock j → ¬ s.release.Holds j) : Nearer requests s := by
  have hwithin := h.begun.within
  cases hpc : s.processor with
  | lock j =>
      rw [hpc] at hwithin
      by_cases hj : j < numActiveInstances
      · refine ⟨.processor, { s with processor := .test j }, trivial, ?_, ?_, ?_⟩
        · show startInstances s = _
          simp [startInstances, hpc, hj, hfree j hpc]
        · refine can_return_of_alive (by simp [State.Alive]) fun i hi => ?_
          have hhope := (hc.hope hi).2
          rwa [hpc] at hhope
        · refine rank_lt_of_processor ?_
          simp only [ProcessorPc.work, hpc]
          omega
      · have heq : j = numActiveInstances := le_antisymm hwithin (not_lt.mp hj)
        refine ⟨.processor, { s with
          running := true
          active := true
          processor := .check }, trivial, ?_, ?_, ?_⟩
        · show startInstances s = _
          simp [startInstances, hpc, hj]
        · refine can_return_of_alive (by simp [State.Alive]) fun i hi => ?_
          have hhope := (hc.hope hi).2
          rwa [hpc, heq] at hhope
        · refine rank_lt_of_processor ?_
          have haway := h.within.away_le s.nextInstance
          simp only [ProcessorPc.work, hpc]
          omega
  | test j =>
      have hactive := h.begun.active (by simp [hpc]) j (by rwa [hpc] at hwithin)
      rw [hpc] at hactive
      have hinactive : s.instActive j = false :=
        Bool.eq_false_iff.mpr fun htrue => lt_irrefl j (hactive.mp htrue)
      refine ⟨.startInstance .success .success, { s with
        instStatus := Function.update s.instStatus j .success
        release := s.release.signal j
        processor := .create j }, trivial, ?_, ?_, ?_⟩
      · show startInstance s .success .success = _
        simp [startInstance, hpc, hinactive]
      · refine can_return_of_alive (by simp [State.Alive]) fun i hi => ?_
        rcases s.release.signal_cases j with ⟨heq, hne⟩ | ⟨-, heq⟩
        · replace hi : s.release = .wait i ∨ s.release = .asleep i := heq ▸ hi
          have hhope := (hc.hope hi).2
          rw [hpc] at hhope
          refine hhope.imp_right fun hle => Nat.lt_of_le_of_ne hle ?_
          rintro rfl
          -- the release does not hold the mutex
          rcases hi with hi | hi
          · exact h.apart j (by rw [hpc]; rfl) (by rw [hi]; rfl)
          · exact hne hi
        · simp [heq] at hi
      · refine rank_lt_of_processor ?_
        simp only [ProcessorPc.work, hpc]
        omega
  | create j =>
      refine ⟨.createPoller true true, { s with
        pollers := Function.update s.pollers j .created
        processor := .activate j }, trivial, ?_, ?_, ?_⟩
      · show createPoller s true true = _
        simp [createPoller, hpc]
      · refine can_return_of_alive (by simp [State.Alive]) fun i hi => ?_
        have hhope := (hc.hope hi).2
        rwa [hpc] at hhope
      · refine rank_lt_of_processor ?_
        simp only [ProcessorPc.work, hpc]
        omega
  | activate j =>
      rw [hpc] at hwithin
      have hj : j < numActiveInstances := hwithin
      refine ⟨.processor, { s with
        instActive := Function.update s.instActive j true
        instRunning := Function.update s.instRunning j true
        processor := .lock (j + 1) }, trivial, ?_, ?_, ?_⟩
      · show startInstances s = _
        simp [startInstances, hpc]
      · refine can_return_of_alive (by simp [State.Alive]) fun i hi => ?_
        have hhope := (hc.hope hi).2
        rwa [hpc] at hhope
      · refine rank_lt_of_processor ?_
        simp only [ProcessorPc.work, hpc]
        omega
  | _ => simp [hpc, ProcessorPc.Starting] at hstart

/-- In its loop it goes on to the request whose acceptance wakes the release. -/
theorem loop_nearer (h : Inv s) {i : ℕ} (hi : s.release = .asleep i) (hl : s.processor.Looping) :
    Nearer true s := by
  have hwithin := h.within
  rw [hi] at hwithin
  have haway : s.release.away s.nextInstance = distance s.nextInstance i := by rw [hi]; rfl
  cases hpc : s.processor with
  | check =>
      have hrun := h.waiting i (.inr hi) hl
      refine ⟨.processor, { s with processor := .read }, trivial, ?_, ?_, ?_⟩
      · show startInstances s = _
        simp [startInstances, hpc, hrun]
      · exact can_return_of_alive (by simp [State.Alive]) fun _ _ => .inl rfl
      · refine rank_lt_of_processor ?_
        simp only [ProcessorPc.work, hpc]
        omega
  | read =>
      refine ⟨.read 1, { s with processor := .offload 1 }, trivial, ?_, ?_, ?_⟩
      · show readRequests s 1 = _
        simp [readRequests, hpc]
      · exact can_return_of_alive (by simp [State.Alive]) fun _ _ => .inl rfl
      · refine rank_lt_of_processor ?_
        simp only [ProcessorPc.work, hpc]
        omega
  | offload left =>
      cases left with
      | zero =>
          refine ⟨.processor, { s with processor := .check }, trivial, ?_, ?_, ?_⟩
          · show startInstances s = _
            simp [startInstances, hpc]
          · exact can_return_of_alive (by simp [State.Alive]) fun _ _ => .inl rfl
          · refine rank_lt_of_processor ?_
            simp only [ProcessorPc.work, hpc]
            omega
      | succ left =>
          refine ⟨.offload .success, { s with
            nextInstance := (s.nextInstance + 1) % numActiveInstances
            release := s.release.signal ((s.nextInstance + 1) % numActiveInstances)
            processor := .offload left }, rfl, ?_, ?_, ?_⟩
          · show offload s .success = _
            simp [offload, hpc]
          · exact can_return_of_alive (by simp [State.Alive]) fun _ _ => .inl rfl
          · refine rank_lt_of_processor ?_
            have hlower : (s.release.signal ((s.nextInstance + 1) % numActiveInstances)).away
                ((s.nextInstance + 1) % numActiveInstances) < s.release.away s.nextInstance := by
              rw [haway]
              rcases s.release.signal_cases ((s.nextInstance + 1) % numActiveInstances) with
                ⟨heq, hne⟩ | ⟨-, heq⟩
              · rw [heq, hi]
                exact distance_next h.begun.bounded hwithin fun hmod => hne (by rw [hi, hmod])
              · rw [heq]
                exact distance_pos h.begun.bounded
            rw [hpc]
            cases left
            all_goals
              simp only [ProcessorPc.work]
              omega
  | _ => simp [hpc, ProcessorPc.Looping] at hl

theorem starting_or_looping (halive : s.Alive) : s.processor.Starting ∨ s.processor.Looping := by
  cases hpc : s.processor with
  | lock j | test j | create j | activate j => exact .inl trivial
  | check | read | offload left => exact .inr trivial
  | exited => exact absurd hpc halive

/-- An instance that is not active keeps the processing thread in its start-up. -/
theorem starting_of_inactive (h : Inv s) (halive : s.Alive) {i : ℕ} (hi : i < numActiveInstances)
    (hinactive : s.instActive i = false) : s.processor.Starting := by
  refine (starting_or_looping halive).resolve_right fun hl => ?_
  have htrue := Begun.all_active h.begun hl i hi
  rw [hinactive] at htrue
  cases htrue

/-- The release goes on. -/
theorem release_nearer (t : State) (hs : stopInstances s = some t)
    (hwork : t.processor.work (t.release.away t.nextInstance)
      = s.processor.work (s.release.away s.nextInstance))
    (hlt : t.release.work < s.release.work) (hc : t.CanReturn requests) : Nearer requests s :=
  ⟨.release, t, trivial, hs, hc, rank_lt_of_release hwork hlt⟩

/-- The processing thread holds the mutex of an instance only before that is active. -/
theorem inactive_of_holds (h : Inv s) {i : ℕ} (hheld : s.processor.Holds i) :
    s.instActive i = false := by
  have hwithin := h.begun.within
  cases hpc : s.processor with
  | test j =>
      rw [hpc] at hwithin hheld
      obtain rfl : j = i := hheld
      have hactive := h.begun.active (by simp [hpc]) j hwithin
      rw [hpc] at hactive
      exact Bool.eq_false_iff.mpr fun htrue => lt_irrefl j (hactive.mp htrue)
  | _ => simp [hpc, ProcessorPc.Holds] at hheld

theorem lock_nearer (h : Inv s) {i : ℕ} (hpc : s.release = .lock i) (hc : s.CanReturn requests) :
    Nearer requests s := by
  have hopen : s.Alive ∨ s.ActiveFrom i := by rwa [State.CanReturn, hpc] at hc
  by_cases hi : i < numActiveInstances
  · cases hactive : s.instActive i with
    | true =>
        have hfree : ¬ s.processor.Holds i := fun hheld => by
          rw [inactive_of_holds h hheld] at hactive
          cases hactive
        refine release_nearer { s with release := .test i } ?_ ?_ ?_ hopen
        · simp [stopInstances, hpc, hi, hfree]
        · simp [hpc, ReleasePc.away]
        · simp [hpc, ReleasePc.work]
    | false =>
        -- it is worth while to wait for the processing thread before taking the mutex
        have halive : s.Alive := hopen.resolve_right fun hfrom => by
          rw [hfrom i le_rfl hi] at hactive
          cases hactive
        refine startup_nearer h hc (starting_of_inactive h halive hi hactive) fun _ _ => ?_
        rw [hpc]
        exact id
  · refine release_nearer { s with release := .returned } ?_ ?_ ?_ trivial
    · simp [stopInstances, hpc, hi]
    · simp [hpc, ReleasePc.away]
    · simp [hpc, ReleasePc.work]

theorem test_nearer (h : Inv s) {i : ℕ} (hpc : s.release = .test i) (hc : s.CanReturn requests) :
    Nearer requests s := by
  have hopen : s.Alive ∨ s.ActiveFrom i := by rwa [State.CanReturn, hpc] at hc
  have hi : i < numActiveInstances := by
    have hwithin := h.within
    rwa [hpc] at hwithin
  cases hactive : s.instActive i with
  | true =>
      obtain ⟨cleared, hcleared⟩ : ∃ f : (ℕ → Bool) → ℕ → Bool, f = fun flag =>
        if s.instStatus i = .success then Function.update flag i false else flag := ⟨_, rfl⟩
      refine release_nearer { s with
        instPolling := cleared s.instPolling
        instRunning := cleared s.instRunning
        release := .stop i } ?_ ?_ ?_ hopen
      · simp [stopInstances, hpc, hactive, hcleared]
      · simp [hpc, ReleasePc.away]
      · simp [hpc, ReleasePc.work]
  | false =>
      have halive : s.Alive := hopen.resolve_right fun hfrom => by
        rw [hfrom i le_rfl hi] at hactive
        cases hactive
      have hstart := starting_of_inactive h halive hi hactive
      by_cases hsignalled : s.processor.signalled ≤ i
      · -- the signal is still to come, so it may go to sleep
        refine release_nearer { s with release := .wait i } ?_ (hstart.work_eq _ _) ?_
          ⟨halive, .inr hsignalled⟩
        · simp [stopInstances, hpc, hactive]
        · simp [hpc, ReleasePc.work]
      · refine startup_nearer h hc hstart fun j hj => ?_
        rw [hj, not_le] at hsignalled
        rw [hpc]
        rintro rfl
        exact lt_irrefl _ hsignalled

theorem nearer (h : Inv s) (hc : s.CanReturn requests) :
    s.release = .returned ∨ Nearer requests s := by
  have hwithin := h.within
  cases hpc : s.release with
  | returned => exact .inl rfl
  | idle =>
      refine .inr ⟨.call, { s with release := .clear }, trivial, ?_, ?_, ?_⟩
      · show (if s.release = .idle then _ else none) = _
        rw [if_pos hpc]
      · rwa [State.CanReturn, hpc] at hc
      · refine rank_lt_of_release ?_ ?_
        all_goals simp [hpc, ReleasePc.away, ReleasePc.work]
  | clear =>
      refine .inr (release_nearer { s with active := false, running := false, release := .lock 0 }
        ?_ ?_ ?_ ?_)
      · simp [stopInstances, hpc]
      · simp [hpc, ReleasePc.away]
      · simp [hpc, ReleasePc.work]
      · rwa [State.CanReturn, hpc] at hc
  | lock i => exact .inr (lock_nearer h hpc hc)
  | test i => exact .inr (test_nearer h hpc hc)
  | wait i =>
      refine .inr (release_nearer { s with release := .asleep i } ?_ ?_ ?_
        (hc.hope (.inl hpc)))
      · simp [stopInstances, hpc]
      · simp [hpc, ReleasePc.away]
      · simp [hpc, ReleasePc.work]
  | asleep i =>
      obtain ⟨halive, hhope⟩ := hc.hope (.inr hpc)
      rcases starting_or_looping halive with hstart | hl
      · refine .inr (startup_nearer h hc hstart fun _ _ => ?_)
        rw [hpc]
        exact id
      · rw [hpc] at hwithin
        have hreq : requests = true := hhope.resolve_right fun hle => by
          rw [hl.signalled_eq] at hle
          exact not_lt.mpr hle hwithin
        rw [hreq]
        exact .inr (loop_nearer h hpc hl)
  | stop i =>
      refine .inr (release_nearer { s with release := .lock (i + 1) } ?_ ?_ ?_ ?_)
      · simp [stopInstances, hpc]
      · simp [hpc, ReleasePc.away]
      · rw [hpc] at hwithin
        have hi : i < numActiveInstances := hwithin
        simp only [hpc, ReleasePc.work]
        omega
      · rw [State.CanReturn, hpc] at hc
        exact hc.imp_right fun hfrom k hik hk => hfrom k (Nat.le_of_succ_le hik) hk

/--
**When a release can still return.**

In any run, whatever the threads have done so far, and with or without requests that the device
accepts from now on, if nobody wakes for no reason.
-/
theorem can_return_iff (h : system.Reachable s) (requests : Bool) :
    (∃ as u, system.Meets (fun _ a => a.Allowed requests) s as ∧ system.run s as = some u ∧
      u.release = .returned) ↔ s.CanReturn requests := by
  have hinv : Inv s := h.invariant (fun _ => Inv.init) fun _ _ _ h _ hs => h.step hs
  refine TransitionSystem.can_reach_iff (G := fun u => u.release = .returned)
    (C := fun s => s.CanReturn requests) State.rank (fun _ _ _ h hs => h.step hs) ?_ ?_ ?_ hinv
  · intro t ht
    rw [State.CanReturn, ht]
    trivial
  · exact fun _ _ _ h hallowed hs => CanReturn.step_back h hallowed hs
  · exact fun _ h hc => nearer h hc

/-- A release that comes while the first instance is between its signal and its mark. -/
def asleepRun : List Action :=
  [.processor, .startInstance .success .success, .call, .release, .release, .release, .release,
    .createPoller true true, .processor]

/-- It sleeps on a variable that only a request can signal, though the instance is active. -/
theorem can_return_asleep :
    ∃ s, system.Reachable s ∧ s.release = .asleep 0 ∧ s.instActive 0 = true ∧
      (¬ ∃ as u, system.Meets (fun _ a => a.Allowed false) s as ∧ system.run s as = some u ∧
        u.release = .returned) ∧
      ∃ as u, system.Meets (fun _ a => a.Allowed true) s as ∧ system.run s as = some u ∧
        u.release = .returned := by
  have hrun : (system.run (.initial 0) asleepRun).map
      (fun s => (s.release, s.processor, s.instActive 0)) = some (.asleep 0, .lock 1, true) := rfl
  obtain ⟨s, hs, hseen⟩ := system.reachable_of_map_run ⟨0, by decide, rfl⟩ hrun
  obtain ⟨hrelease, hprocessor, hactive⟩ : s.release = .asleep 0 ∧ s.processor = .lock 1 ∧
      s.instActive 0 = true := by simpa using hseen
  refine ⟨s, hs, hrelease, hactive, ?_, ?_⟩
  · rw [can_return_iff hs false, State.CanReturn, hrelease, hprocessor]
    simp [ProcessorPc.signalled]
  · rw [can_return_iff hs true, State.CanReturn, hrelease]
    exact ⟨by simp [State.Alive, hprocessor], .inl rfl⟩

/-! ### Requests that go on being accepted -/

/-- An instance that is active stays so. -/
theorem active_step (hs : system.step s a = some s') {k : ℕ} (hk : s.instActive k = true) :
    s'.instActive k = true := by
  cases step_effect hs with
  | activates j hpc =>
      show Function.update s.instActive j true k = true
      rcases eq_or_ne k j with rfl | hkj
      · simp
      · rwa [Function.update_of_ne hkj]
  | _ => exact hk

/-- A call stays a call. -/
theorem called_step (hs : system.step s a = some s') (hcalled : s.release ≠ .idle) :
    s'.release ≠ .idle := by
  cases step_effect hs with
  | starts j _ _ _ _ | accepts _ _ =>
      show s.release.signal _ ≠ .idle
      unfold ReleasePc.signal
      split
      · simp
      · exact hcalled
  | locks _ _ _ _ | enters _ _ _ | activates _ _ | checks _ | finishes _ | creates _ _ _ _
  | reads _ _ | halts _ _ | refuses _ _ _ _ | begins _ _ | polls _ _ => exact hcalled
  | _ => simp

/-- The release is under way, and all instances are active. -/
structure Underway (s : State) : Prop where
  inv : Inv s
  active : ∀ k < numActiveInstances, s.instActive k = true
  called : s.release ≠ .idle
  going : s.release ≠ .returned

/-- How far the release is from its return: how many instances are left, and what there is to do
for the next of them.  Sleep takes it away by the requests it needs to wake. -/
def ReleasePc.stage (pc : ReleasePc) (next : ℕ) : ℕ × ℕ :=
  match pc with
  | .idle | .clear => (numActiveInstances + 2, 0)
  | .wait i => (numActiveInstances + 1 - i, numActiveInstances + 4)
  | .asleep i => (numActiveInstances + 1 - i, distance next i + 3)
  | .lock i => (numActiveInstances + 1 - i, 2)
  | .test i => (numActiveInstances + 1 - i, 1)
  | .stop i => (numActiveInstances + 1 - i, 0)
  | .returned => (0, 0)

def State.farness (s : State) : ℕ ×ₗ ℕ := toLex (s.release.stage s.nextInstance)

/-- Asleep, it is the device that helps it. -/
def ReleasePc.isAsleep : ReleasePc → Bool
  | .asleep _ => true
  | _ => false

/-- The actions that help: of the device, and of the thread of the release. -/
def party : Bool → Action → Prop
  | true, a => a = .offload .success
  | false, a => a = .release

theorem farness_lt
    (h : (s'.release.stage s'.nextInstance).1 < (s.release.stage s.nextInstance).1 ∨
      (s'.release.stage s'.nextInstance).1 = (s.release.stage s.nextInstance).1 ∧
        (s'.release.stage s'.nextInstance).2 < (s.release.stage s.nextInstance).2) :
    s'.farness < s.farness :=
  Prod.Lex.toLex_lt_toLex.mpr h

theorem farness_release (h : Underway s) (hs : system.step s .release = some s') :
    s'.farness < s.farness := by
  have hwithin := h.inv.within
  cases step_effect hs with
  | clears hpc => exact farness_lt (.inl (by simp [hpc, ReleasePc.stage]))
  | takes i hpc hi _ => exact farness_lt (.inr (by simp [hpc, ReleasePc.stage]))
  | returns i hpc hi =>
      by_cases heq : i = numActiveInstances
      · exact farness_lt (.inl (by simp [hpc, heq, ReleasePc.stage]))
      · exact farness_lt (.inr (by simp [hpc, ReleasePc.stage]; omega))
  | tells i hpc _ _ _ => exact farness_lt (.inr (by simp [hpc, ReleasePc.stage]))
  | waits i hpc hinactive =>
      rw [hpc] at hwithin
      rw [h.active i hwithin] at hinactive
      cases hinactive
  | sleeps i hpc =>
      rw [hpc] at hwithin
      have hle : distance s.nextInstance i ≤ numActiveInstances := distance_le hwithin
      exact farness_lt (.inr (by simp [hpc, ReleasePc.stage]; omega))
  | stops i hpc =>
      rw [hpc] at hwithin
      have hi : i < numActiveInstances := hwithin
      exact farness_lt (.inl (by simp [hpc, ReleasePc.stage]; omega))

/-- What the others do takes it no farther away. -/
theorem farness_step (h : Underway s) (hs : system.step s a = some s') (hne : a ≠ .release) :
    s'.farness < s.farness ∨ s'.farness = s.farness ∧
      s'.release.isAsleep = s.release.isAsleep ∧ ¬ party s.release.isAsleep a := by
  have hwithin := h.inv.within
  cases step_effect hs with
  | starts j status translated hpc hinactive =>
      have hbegun := h.inv.begun.within
      rw [hpc] at hbegun
      rw [h.active j hbegun] at hinactive
      cases hinactive
  | accepts left hpc =>
      rcases s.release.signal_cases ((s.nextInstance + 1) % numActiveInstances) with
        ⟨heq, hsame⟩ | ⟨hasleep, heq⟩
      · cases hrel : s.release with
        | asleep i =>
            rw [hrel] at hwithin hsame heq
            refine .inl (farness_lt (.inr ?_))
            simp only [hrel, heq, ReleasePc.stage, true_and, Nat.add_lt_add_iff_right]
            exact distance_next h.inv.begun.bounded hwithin fun hmod => hsame (by rw [hmod])
        | _ =>
            rw [hrel] at heq
            refine .inr ⟨?_, ?_, ?_⟩
            · simp [State.farness, hrel, heq, ReleasePc.stage]
            · simp [heq]
            · simp [ReleasePc.isAsleep, party]
      · refine .inl (farness_lt (.inr ?_))
        rw [heq, hasleep]
        exact ⟨rfl, by simp [ReleasePc.stage]⟩
  | calls hpc => exact absurd hpc h.called
  | wakes i hpc => exact .inl (farness_lt (.inr (by simp [hpc, ReleasePc.stage])))
  | refuses left status hpc hstatus =>
      refine .inr ⟨rfl, rfl, ?_⟩
      cases s.release.isAsleep <;> simp [party, hstatus]
  | clears _ | takes _ _ _ _ | returns _ _ _ | tells _ _ _ _ _ | waits _ _ _ | sleeps _ _
  | stops _ _ => exact absurd rfl hne
  | _ =>
      refine .inr ⟨rfl, rfl, ?_⟩
      cases s.release.isAsleep <;> simp [party]

theorem looping_of_accepts (hs : system.step s (.offload .success) = some s') :
    s.processor.Looping := by
  cases step_effect hs with
  | accepts left hpc | refuses left _ hpc _ =>
      rw [hpc]
      trivial

/-- Awake, the thread of the release can go on. -/
theorem release_enabled (h : Underway s) (hawake : s.release.isAsleep = false) :
    (system.step s .release).isSome := by
  show (stopInstances s).isSome
  cases hpc : s.release with
  | idle => exact absurd hpc h.called
  | returned => exact absurd hpc h.going
  | asleep i => simp [hpc, ReleasePc.isAsleep] at hawake
  | lock i =>
      by_cases hi : i < numActiveInstances
      · have hfree : ¬ s.processor.Holds i := fun hheld => by
          have hinactive := inactive_of_holds h.inv hheld
          rw [h.active i hi] at hinactive
          cases hinactive
        simp [stopInstances, hpc, hi, hfree]
      · simp [stopInstances, hpc, hi]
  | test i => cases hactive : s.instActive i <;> simp [stopInstances, hpc, hactive]
  | _ => simp [stopInstances, hpc]

/--
**Requests bring the release home.**

In every run in which the device goes on accepting requests and the thread of the release gets
its turns, a release that has been called returns.
-/
theorem returns_of_accepting {ok : State → Action → Prop} (r : system.Run ok)
    (hreach : system.Reachable (r.state 0)) (hfair : r.WeaklyFair (· = .release))
    (haccepts : ∀ n, ∃ m, n ≤ m ∧ r.action m = .offload .success) {n : ℕ}
    (hcalled : (r.state n).release ≠ .idle) : ∃ m, n ≤ m ∧ (r.state m).release = .returned := by
  have hinv : ∀ m, Inv (r.state m) := fun m =>
    r.keeps (fun _ _ _ h _ hs => h.step hs) (Nat.zero_le m)
      (hreach.invariant (fun _ => Inv.init) fun _ _ _ h _ hs => h.step hs)
  have hcalls : ∀ m, n ≤ m → (r.state m).release ≠ .idle := by
    intro m hnm
    induction hnm with
    | refl => exact hcalled
    | step _ ih => exact called_step (r.step _) ih
  -- once a request has been accepted, all instances are active
  obtain ⟨l, hnl, hl⟩ := haccepts n
  have hactive : ∀ m, l ≤ m → ∀ k < numActiveInstances, (r.state m).instActive k = true := by
    intro m hlm
    induction hlm with
    | refl =>
        have hs := r.step l
        rw [hl] at hs
        exact Begun.all_active (hinv l).begun (looping_of_accepts hs)
    | step _ ih => exact fun k hk => active_step (r.step _) (ih k hk)
  have hunder : ∀ m, l ≤ m → (r.state m).release = .returned ∨ Underway (r.state m) := by
    intro m hlm
    by_cases hret : (r.state m).release = .returned
    · exact .inl hret
    · exact .inr ⟨hinv m, hactive m hlm, hcalls m (hnl.trans hlm), hret⟩
  rcases hunder l le_rfl with hret | hstart
  · exact ⟨l, hnl, hret⟩
  suffices hgoal : ∃ m, l ≤ m ∧ (r.state m).release = .returned by
    obtain ⟨m, hlm, hret⟩ := hgoal
    exact ⟨m, hnl.trans hlm, hret⟩
  refine r.reaches_served party (fun s => s.release.isAsleep) Underway
    (fun s => s.release = .returned) State.farness ?_ ?_ hstart
  · intro m hlm h
    refine (hunder (m + 1) (Nat.le_succ_of_le hlm)).imp_right fun h' => ⟨h', ?_⟩
    by_cases hrel : r.action m = .release
    · have hs := r.step m
      rw [hrel] at hs
      exact .inl (farness_release h hs)
    · exact farness_step h (r.step m) hrel
  · intro m hlm hstay
    cases hasleep : (r.state m).release.isAsleep with
    | true =>
        obtain ⟨k, hk, hacc⟩ := haccepts m
        exact ⟨k, hk, hacc⟩
    | false =>
        refine hfair m fun k hk => ⟨.release, rfl, ?_⟩
        obtain ⟨hgoing, hsame⟩ := hstay k hk
        exact release_enabled hgoing (hsame.trans hasleep)

/-- What the processing thread does next in its loop, when there are requests. -/
def ProcessorPc.next : ProcessorPc → Action
  | .read => .read 1
  | .offload (_ + 1) => .offload .success
  | _ => .processor

/-- The release goes first. -/
def State.next (s : State) : Action :=
  if (system.step s .release).isSome then .release else s.processor.next

/-- The release has cleared the flags, and the processing thread is in its loop. -/
structure Beside (s : State) : Prop where
  inv : Inv s
  looping : s.processor.Looping
  running : s.running = true
  called : s.release ≠ .idle ∧ s.release ≠ .clear

theorem release_keeps (h : Beside s) (hs : system.step s .release = some s') :
    s'.processor = s.processor ∧ s'.running = s.running ∧ s'.release ≠ .idle ∧
      s'.release ≠ .clear := by
  cases step_effect hs with
  | clears hpc => exact absurd hpc h.called.2
  | _ => simp

theorem beside_next (h : Beside s) : ∃ s', system.step s s.next = some s' ∧ Beside s' := by
  unfold State.next
  split
  · next hsome =>
      obtain ⟨t, ht⟩ := Option.isSome_iff_exists.mp hsome
      obtain ⟨hprocessor, hrunning, hcalled⟩ := release_keeps h ht
      exact ⟨t, ht, h.inv.step ht, hprocessor ▸ h.looping, hrunning ▸ h.running, hcalled⟩
  · cases hpc : s.processor with
    | check =>
        have hs : system.step s .processor = some { s with processor := .read } := by
          show startInstances s = _
          simp [startInstances, hpc, h.running]
        exact ⟨_, hs, h.inv.step hs, trivial, h.running, h.called⟩
    | read =>
        have hs : system.step s (.read 1) = some { s with processor := .offload 1 } := by
          show readRequests s 1 = _
          simp [readRequests, hpc]
        exact ⟨_, hs, h.inv.step hs, trivial, h.running, h.called⟩
    | offload left =>
        cases left with
        | zero =>
            have hs : system.step s .processor = some { s with processor := .check } := by
              show startInstances s = _
              simp [startInstances, hpc]
            exact ⟨_, hs, h.inv.step hs, trivial, h.running, h.called⟩
        | succ left =>
            have hs : system.step s (.offload .success) = some { s with
                nextInstance := (s.nextInstance + 1) % numActiveInstances
                release := s.release.signal ((s.nextInstance + 1) % numActiveInstances)
                processor := .offload left } := by
              show offload s .success = _
              simp [offload, hpc]
            refine ⟨_, hs, h.inv.step hs, trivial, h.running, ?_⟩
            obtain ⟨hidle, hclear⟩ := h.called
            rcases s.release.signal_cases ((s.nextInstance + 1) % numActiveInstances) with
              ⟨heq, -⟩ | ⟨-, heq⟩
            · rw [heq]
              exact h.called
            · rw [heq]
              simp
    | _ =>
        have hlooping := h.looping
        simp [hpc, ProcessorPc.Looping] at hlooping

/-- How far the processing thread is from its next request. -/
def ProcessorPc.phase : ProcessorPc → ℕ
  | .offload 0 => 3
  | .check => 2
  | .read => 1
  | _ => 0

def State.wait (s : State) : (ℕ ×ₗ ℕ) ×ₗ ℕ := toLex (s.farness, s.processor.phase)

theorem wait_next (h : Beside s) (hne : s.next ≠ .offload .success)
    (hs : system.step s s.next = some s') : s'.wait < s.wait := by
  unfold State.next at hne hs
  by_cases hsome : (system.step s .release).isSome
  · rw [if_pos hsome] at hs
    have hgoing : s.release ≠ .returned := fun hpc => by
      change stopInstances s = _ at hs
      simp [stopInstances, hpc] at hs
    have hunder : Underway s :=
      ⟨h.inv, Begun.all_active h.inv.begun h.looping, h.called.1, hgoing⟩
    exact Prod.Lex.toLex_lt_toLex.mpr (.inl (farness_release hunder hs))
  · rw [if_neg hsome] at hs hne
    refine Prod.Lex.toLex_lt_toLex.mpr (.inr ?_)
    cases hpc : s.processor with
    | check =>
        rw [hpc] at hs
        cases step_effect hs with
        | checks _ =>
            rw [h.running]
            exact ⟨rfl, by simp [ProcessorPc.phase]⟩
        | locks _ hpc' _ _ | enters _ hpc' _ | activates _ hpc' | finishes hpc' =>
            simp [hpc] at hpc'
    | read =>
        rw [hpc] at hs
        cases step_effect hs with
        | reads _ _ => exact ⟨rfl, by simp [ProcessorPc.phase]⟩
    | offload left =>
        cases left with
        | zero =>
            rw [hpc] at hs
            cases step_effect hs with
            | finishes _ => exact ⟨rfl, by simp [ProcessorPc.phase]⟩
            | locks _ hpc' _ _ | enters _ hpc' _ | activates _ hpc' | checks hpc' =>
                simp [hpc] at hpc'
        | succ left => exact absurd (by rw [hpc]; rfl) hne
    | _ =>
        have hlooping := h.looping
        simp [hpc, ProcessorPc.Looping] at hlooping

/-- There is such a run. -/
theorem exists_accepting (h : Beside s) : ∃ r : system.Run fun s a => a = s.next, r.state 0 = s ∧
    r.WeaklyFair (· = .release) ∧ ∀ n, ∃ m, n ≤ m ∧ r.action m = .offload .success := by
  have hnext : ∀ s, Beside s → ∃ a s', True ∧ a = s.next ∧ system.step s a = some s' ∧
      Beside s' := fun s h => by
    obtain ⟨t, ht, hb⟩ := beside_next h
    exact ⟨s.next, t, trivial, rfl, ht, hb⟩
  obtain ⟨r, hstart, -, hbeside⟩ := TransitionSystem.Run.exists_forever hnext h
  refine ⟨r, hstart, fun n hn => ?_, fun n => ?_⟩
  · obtain ⟨_, rfl, hsome⟩ := hn n le_rfl
    exact ⟨n, le_rfl, (r.meets n).trans (if_pos hsome)⟩
  · suffices hgoal : ∃ m, n ≤ m ∧ (r.state m).next = .offload .success by
      obtain ⟨m, hnm, hm⟩ := hgoal
      exact ⟨m, hnm, (r.meets m).trans hm⟩
    by_cases hn : (r.state n).next = .offload .success
    · exact ⟨n, le_rfl, hn⟩
    refine r.reaches_served (fun _ _ => True) (fun _ => ())
      (fun s => Beside s ∧ s.next ≠ .offload .success) (fun s => s.next = .offload .success)
      State.wait (fun m _ hm => ?_) (fun m _ _ => ⟨m, le_rfl, trivial⟩) ⟨hbeside n, hn⟩
    refine (em ((r.state (m + 1)).next = .offload .success)).imp_right fun hne => ?_
    have hs := r.step m
    rw [r.meets m] at hs
    exact ⟨⟨hbeside (m + 1), hne⟩, .inl (wait_next hm.1 hm.2 hs)⟩

/-- The release is asleep on the first variable, and all instances are active. -/
def loopingRun : List Action :=
  asleepRun ++ (List.replicate 7 [.processor, .startInstance .success .success,
    .createPoller true true, .processor]).flatten ++ [.processor]

theorem returns_of_accepting_asleep :
    ∃ (s : State) (r : system.Run fun s a => a = s.next), r.state 0 = s ∧
      s.release = .asleep 0 ∧ ∃ m, 0 ≤ m ∧ (r.state m).release = .returned := by
  have hrun : (system.run (.initial 0) loopingRun).map
      (fun s => (s.release, s.processor, s.running)) = some (.asleep 0, .check, true) := rfl
  obtain ⟨s, hs, hseen⟩ := system.reachable_of_map_run ⟨0, by decide, rfl⟩ hrun
  obtain ⟨hrelease, hprocessor, hrunning⟩ : s.release = .asleep 0 ∧ s.processor = .check ∧
      s.running = true := by simpa using hseen
  have hinv : Inv s := hs.invariant (fun _ => Inv.init) fun _ _ _ h _ hs => h.step hs
  obtain ⟨r, hstart, hfair, haccepts⟩ := exists_accepting
    ⟨hinv, by rw [hprocessor]; trivial, hrunning, by simp [hrelease]⟩
  exact ⟨s, r, hstart, hrelease, returns_of_accepting r (hstart ▸ hs) hfair haccepts
    (by rw [hstart, hrelease]; simp)⟩

/-! ### The polling threads -/

/-- The release has told instance `i` to stop. -/
def ReleasePc.Past (i : ℕ) : ReleasePc → Prop
  | .stop k => i ≤ k
  | .lock k | .test k | .wait k | .asleep k => i < k
  | .returned => True
  | _ => False

/-- Instance `i` is active, and the release has told it to stop. -/
structure Told (i : ℕ) (s : State) : Prop where
  inv : Inv s
  within : i < numActiveInstances
  active : s.instActive i = true
  past : s.release.Past i

theorem past_signal {pc : ReleasePc} {i : ℕ} (h : pc.Past i) (j : ℕ) : (pc.signal j).Past i := by
  rcases pc.signal_cases j with ⟨heq, -⟩ | ⟨hpc, heq⟩
  · rwa [heq]
  · rw [heq]
    rwa [hpc] at h

theorem past_step {i : ℕ} (hs : system.step s a = some s') (h : s.release.Past i) :
    s'.release.Past i := by
  cases step_effect hs with
  | starts j _ _ _ _ | accepts _ _ => exact past_signal h _
  | calls hpc | clears hpc =>
      rw [hpc] at h
      exact h.elim
  | returns k hpc hk => trivial
  | takes k hpc _ _ | waits k hpc _ | sleeps k hpc | wakes k hpc =>
      rw [hpc] at h
      exact h
  | tells k hpc _ _ _ =>
      rw [hpc] at h
      exact le_of_lt h
  | stops k hpc =>
      rw [hpc] at h
      exact Nat.lt_succ_of_le h
  | _ => exact h

theorem Told.step {i : ℕ} (h : Told i s) (hs : system.step s a = some s') : Told i s' :=
  ⟨h.inv.step hs, h.within, active_step hs h.active, past_step hs h.past⟩

/-- Nobody but the polling thread changes its flag or its place from then on. -/
theorem Told.others {i : ℕ} (h : Told i s) (hs : system.step s a = some s') (hne : a ≠ .poller i) :
    s'.instPolling i = s.instPolling i ∧ s'.pollers i = s.pollers i := by
  cases step_effect hs with
  | tells k hpc _ cleared hcleared =>
      have hik : i ≠ k := by
        have hpast := h.past
        rw [hpc] at hpast
        exact ne_of_lt hpast
      refine ⟨?_, rfl⟩
      show cleared s.instPolling i = _
      rw [hcleared]
      split
      · exact Function.update_of_ne hik _ _
      · rfl
  | creates j created detached hpc =>
      -- an instance that is active has its thread
      have hij : i ≠ j := by
        rintro rfl
        have hactive := h.inv.begun.active (by simp [hpc]) i h.within
        rw [hpc] at hactive
        exact lt_irrefl i (hactive.mp h.active)
      refine ⟨rfl, ?_⟩
      show (if created then Function.update s.pollers j .created else s.pollers) i = _
      split
      · exact Function.update_of_ne hij _ _
      · rfl
  | begins k _ | polls k _ =>
      have hik : i ≠ k := fun heq => hne (by rw [heq])
      simp [Function.update_of_ne hik]
  | _ => exact ⟨rfl, rfl⟩

/-- When the release tells the instance to stop, its flag is cleared. -/
theorem told_of_test {i : ℕ} (h : Inv s) (hpc : s.release = .test i)
    (hactive : s.instActive i = true) (hs : system.step s .release = some s') :
    Told i s' ∧ s'.instPolling i = false ∧ s'.pollers i = s.pollers i := by
  have hwithin := h.within
  rw [hpc] at hwithin
  have hinv := h.step hs
  cases step_effect hs with
  | tells k hpc' _ cleared hcleared =>
      obtain rfl : i = k := by simpa [hpc] using hpc'
      refine ⟨⟨hinv, hwithin, hactive, le_rfl⟩, ?_, rfl⟩
      show cleared s.instPolling i = false
      rw [hcleared, if_pos (h.begun.status i hactive), Function.update_self]
  | waits k hpc' hinactive =>
      obtain rfl : i = k := by simpa [hpc] using hpc'
      rw [hactive] at hinactive
      cases hinactive
  | clears hpc' | takes _ hpc' _ _ | returns _ hpc' _ | sleeps _ hpc' | stops _ hpc' =>
      simp [hpc] at hpc'

/-- A thread that has been told before it has begun, or after it has set its flag anew. -/
structure Missed (i : ℕ) (s : State) : Prop where
  told : Told i s
  polls : s.pollers i = .created ∨ s.pollers i = .polling ∧ s.instPolling i = true

theorem Missed.step {i : ℕ} (h : Missed i s) (hs : system.step s a = some s') : Missed i s' := by
  refine ⟨h.told.step hs, ?_⟩
  by_cases ha : a = .poller i
  · rw [ha] at hs
    cases step_effect hs with
    | begins _ hpc => exact .inr (by simp)
    | polls _ hpc =>
        rcases h.polls with hcreated | ⟨-, hflag⟩
        · simp [hpc] at hcreated
        · exact .inr (by simp [hflag])
  · obtain ⟨hflag, hpoller⟩ := h.told.others hs ha
    rw [hflag, hpoller]
    exact h.polls

/-- A thread that is about to see that it has been told. -/
structure Ending (i : ℕ) (s : State) : Prop where
  told : Told i s
  polls : s.pollers i = .polling
  flag : s.instPolling i = false

theorem Ending.step {i : ℕ} (h : Ending i s) (hs : system.step s a = some s') :
    s'.pollers i = .exited ∨ Ending i s' ∧ a ≠ .poller i := by
  by_cases ha : a = .poller i
  · rw [ha] at hs
    cases step_effect hs with
    | begins _ hpc => simp [h.polls] at hpc
    | polls _ _ => exact .inl (by simp [h.flag])
  · obtain ⟨hflag, hpoller⟩ := h.told.others hs ha
    exact .inr ⟨⟨h.told.step hs, hpoller.trans h.polls, hflag.trans h.flag⟩, ha⟩

/--
**Which polling threads end.**

When the release clears the flag of a polling thread, and the thread gets its turns from then on:
the thread ends if it had begun, and otherwise polls for ever.
-/
theorem poller_exits_iff {ok : State → Action → Prop} (r : system.Run ok)
    (hreach : system.Reachable (r.state 0)) {n i : ℕ} (htest : (r.state n).release = .test i)
    (hactive : (r.state n).instActive i = true) (hclear : r.action n = .release)
    (hfair : r.WeaklyFair (· = .poller i)) :
    (∃ m, n ≤ m ∧ (r.state m).pollers i = .exited) ↔ (r.state n).pollers i ≠ .created := by
  have hinv : ∀ m, Inv (r.state m) := fun m =>
    r.keeps (fun _ _ _ h _ hs => h.step hs) (Nat.zero_le m)
      (hreach.invariant (fun _ => Inv.init) fun _ _ _ h _ hs => h.step hs)
  have hs := r.step n
  rw [hclear] at hs
  obtain ⟨htold, hflag, hsame⟩ := told_of_test (hinv n) htest hactive hs
  constructor
  · rintro ⟨m, hnm, hexited⟩ hcreated
    have hmissed : ∀ m, n + 1 ≤ m → Missed i (r.state m) := by
      intro m hm
      induction hm with
      | refl => exact ⟨htold, .inl (hsame.trans hcreated)⟩
      | step _ ih => exact ih.step (r.step _)
    rcases hnm.eq_or_lt with rfl | hlt
    · rw [hcreated] at hexited
      cases hexited
    · rcases (hmissed m hlt).polls with hpc | ⟨hpc, -⟩
      all_goals
        rw [hpc] at hexited
        cases hexited
  · intro hbegun
    cases hpc : (r.state n).pollers i with
    | none => exact absurd hpc ((hinv n).begun.poller i hactive)
    | created => exact absurd hpc hbegun
    | exited => exact ⟨n, le_rfl, hpc⟩
    | polling =>
        have hending : Ending i (r.state (n + 1)) := ⟨htold, hsame.trans hpc, hflag⟩
        obtain ⟨m, hnm, hexited⟩ := r.reaches_served (fun _ a => a = .poller i) (fun _ => ())
          (Ending i) (fun s => s.pollers i = .exited) (fun _ => 0)
          (fun m _ h => (h.step (r.step m)).imp_right fun ⟨h', ha⟩ => ⟨h', .inr ⟨rfl, rfl, ha⟩⟩)
          (fun m _ hstay => hfair m fun l hl => ⟨.poller i, rfl, by
            have hpolls := (hstay l hl).1.polls
            change (startInstPolling _ i).isSome
            simp [startInstPolling, hpolls]⟩) hending
        exact ⟨m, Nat.le_of_succ_le hnm, hexited⟩

/-- The first instance is active, and its thread has not begun when the release comes to it. -/
def missedRun : List Action :=
  [.processor, .startInstance .success .success, .createPoller true true, .processor, .call,
    .release, .release]

theorem Missed.enabled {i : ℕ} (h : Missed i s) : (system.step s (.poller i)).isSome := by
  change (startInstPolling s i).isSome
  rcases h.polls with hpc | ⟨hpc, -⟩ <;> simp [startInstPolling, hpc]

theorem Missed.not_test {i : ℕ} (h : Missed i s) : s.release ≠ .test i := fun hpc => by
  have hpast := h.told.past
  rw [hpc] at hpast
  exact lt_irrefl i hpast

/-- First the release, and then the polling thread for ever. -/
def missedNext (s : State) : Action := if s.release = .test 0 then .release else .poller 0

theorem poller_exits_missed : ∃ (s : State) (r : system.Run fun s a => a = missedNext s),
    r.state 0 = s ∧ s.release = .test 0 ∧ ¬ ∃ m, 0 ≤ m ∧ (r.state m).pollers 0 = .exited := by
  have hrun : (system.run (.initial 0) missedRun).map
      (fun s => (s.release, s.instActive 0, s.pollers 0)) = some (.test 0, true, .created) := rfl
  obtain ⟨s, hs, hseen⟩ := system.reachable_of_map_run ⟨0, by decide, rfl⟩ hrun
  obtain ⟨hrelease, hactive, hcreated⟩ : s.release = .test 0 ∧ s.instActive 0 = true ∧
      s.pollers 0 = .created := by simpa using hseen
  have hinv : Inv s := hs.invariant (fun _ => Inv.init) fun _ _ _ h _ hs => h.step hs
  have htell : ∀ u, system.step s .release = some u → Missed 0 u := by
    intro u hu
    obtain ⟨htold, -, hsame⟩ := told_of_test hinv hrelease hactive hu
    exact ⟨htold, .inl (hsame.trans hcreated)⟩
  have hnext : ∀ t, t = s ∨ Missed 0 t → ∃ a u, True ∧ a = missedNext t ∧
      system.step t a = some u ∧ (u = s ∨ Missed 0 u) := by
    rintro t (rfl | hmissed)
    · have hsome : (system.step t .release).isSome := by
        change (stopInstances t).isSome
        simp [stopInstances, hrelease, hactive]
      obtain ⟨u, hu⟩ := Option.isSome_iff_exists.mp hsome
      exact ⟨.release, u, trivial, (if_pos hrelease).symm, hu, .inr (htell u hu)⟩
    · obtain ⟨u, hu⟩ := Option.isSome_iff_exists.mp hmissed.enabled
      exact ⟨.poller 0, u, trivial, (if_neg hmissed.not_test).symm, hu, .inr (hmissed.step hu)⟩
  obtain ⟨r, hstart, -, -⟩ := TransitionSystem.Run.exists_forever hnext (.inl rfl)
  have hfirst : r.action 0 = .release := (r.meets 0).trans (if_pos (hstart ▸ hrelease))
  have hlater : ∀ m, 1 ≤ m → Missed 0 (r.state m) := by
    intro m hm
    induction hm with
    | refl =>
        have hstep := r.step 0
        rw [hfirst, hstart] at hstep
        exact htell _ hstep
    | step _ ih => exact ih.step (r.step _)
  have hfair : r.WeaklyFair (· = .poller 0) := fun m _ =>
    ⟨m + 1, Nat.le_succ m,
      (r.meets (m + 1)).trans (if_neg (hlater (m + 1) (Nat.le_add_left 1 m)).not_test)⟩
  refine ⟨s, r, hstart, hrelease, ?_⟩
  rw [poller_exits_iff r (hstart ▸ hs) (hstart ▸ hrelease) (hstart ▸ hactive) hfirst hfair, hstart]
  exact not_not.mpr hcreated

end Ipcl.HeQat.Shutdown
