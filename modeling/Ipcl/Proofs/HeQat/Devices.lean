/-
What a failed acquisition leaves behind.

The exits of `acquire_qat_devices` undo what they know of.  A failure of the memory driver
has nothing to undo, and one of the SAL process takes back the memory, which is right
unless somebody else had it.  The exit after a failed look-up takes back nothing.  The last
two exits release the whole session, which leaves nothing held; but the release does not
wait for the threads, and what was held before the call is gone as well.

The condition on a step says that it takes one of the first two exits, or none, or the last
one with no thread started and nothing held before.  It is met by every look-up that fails
in a session that is up, because there is none: eight look-ups in turn have seen every
handle.
-/
import Ipcl.HeQat.Devices
import Ipcl.Proofs.HeQat.Context

namespace Ipcl.HeQat.Devices

variable {ρ : Type}

/-! ### Look-ups -/

/-- The look-ups of a session that is up: every handle is there. -/
structure Usable (c : Instances) : Prop where
  pos : 0 < c.numInstances
  handles : ∀ i < c.numInstances, c.cyInstHandles i ≠ none

/-- A look-up after the enumeration. -/
theorem getQatInstance_next (e : Enumeration) {c : Instances} (hpos : 0 < c.numInstances) :
    getQatInstance e c = (c.cyInstHandles ((c.nextInstance + 1) % c.numInstances),
      { c with nextInstance := (c.nextInstance + 1) % c.numInstances }) := by
  rw [getQatInstance, if_neg hpos.ne']

/-- With every handle there the look-ups succeed, and change the position only. -/
theorem Usable.lookUp {e : Enumeration} {n : ℕ} : ∀ {c : Instances}, Usable c →
    ∃ k, Devices.lookUp e n c = (true, { c with nextInstance := k }) := by
  induction n with
  | zero =>
      intro c _
      exact ⟨c.nextInstance, rfl⟩
  | succ n ih =>
      intro c h
      have hnext := h.handles _ (Nat.mod_lt (c.nextInstance + 1) h.pos)
      obtain ⟨x, hx⟩ := Option.ne_none_iff_exists'.mp hnext
      obtain ⟨k, hk⟩ := ih (c := { c with nextInstance := (c.nextInstance + 1) % c.numInstances })
        ⟨h.pos, h.handles⟩
      refine ⟨k, ?_⟩
      rw [Devices.lookUp, getQatInstance_next e h.pos, hx]
      exact hk

/-- Look-ups that succeed have seen the handles in turn. -/
theorem seen_of_lookUp {e : Enumeration} {n : ℕ} : ∀ {c c' : Instances}, 0 < c.numInstances →
    Devices.lookUp e n c = (true, c') →
      c'.numInstances = c.numInstances ∧ c'.cyInstHandles = c.cyInstHandles ∧
        ∀ j, 1 ≤ j → j ≤ n → c.cyInstHandles ((c.nextInstance + j) % c.numInstances) ≠ none := by
  induction n with
  | zero =>
      rintro c c' _ h
      cases h
      exact ⟨rfl, rfl, fun j h1 h0 => by omega⟩
  | succ n ih =>
      intro c c' hpos h
      rw [Devices.lookUp, getQatInstance_next e hpos] at h
      cases hx : c.cyInstHandles ((c.nextInstance + 1) % c.numInstances) with
      | none =>
          rw [hx] at h
          cases h
      | some x =>
          rw [hx] at h
          obtain ⟨hnum, hhandles, hseen⟩ :=
            ih (c := { c with nextInstance := (c.nextInstance + 1) % c.numInstances }) hpos h
          refine ⟨hnum, hhandles, fun j h1 hj => ?_⟩
          by_cases hfirst : j = 1
          · rw [hfirst, hx]
            exact Option.some_ne_none x
          · have hlater := hseen (j - 1) (by omega) (by omega)
            simp only [Nat.mod_add_mod] at hlater
            rwa [show c.nextInstance + 1 + (j - 1) = c.nextInstance + j by omega] at hlater

theorem Enumeration.count_le (e : Enumeration) : e.count ≤ numActiveInstances := by
  simp only [Enumeration.count]
  split_ifs <;> omega

/-- A first look-up that succeeds has found instances, and the handle at the position. -/
theorem getQatInstance_first {e : Enumeration} {c c' : Instances} {x : ℕ}
    (hnum : c.numInstances = 0) (h : getQatInstance e c = (some x, c')) :
    0 < c'.numInstances ∧ c'.numInstances ≤ numActiveInstances ∧
      c'.nextInstance = c.nextInstance ∧ c'.cyInstHandles c.nextInstance = some x := by
  rw [getQatInstance, if_pos hnum] at h
  by_cases hstatus : e.status ≠ .success
  · rw [if_pos hstatus] at h
    cases h
  rw [if_neg hstatus] at h
  by_cases hpos : e.count > 0
  · rw [if_pos hpos] at h
    by_cases hinfo : ∃ i < e.count, e.info i ≠ .success
    · rw [if_pos hinfo] at h
      cases h
    · rw [if_neg hinfo] at h
      obtain ⟨hx, rfl⟩ := Prod.mk.inj h
      exact ⟨hpos, e.count_le, rfl, hx⟩
  · rw [if_neg hpos] at h
    cases h

/-- There are as many look-ups as instances at most, so all handles have been seen. -/
theorem usable_of_lookUp {e : Enumeration} {c c' : Instances} (hnum : c.numInstances = 0)
    (hnext : c.nextInstance = 0) (h : lookUp e numActiveInstances c = (true, c')) : Usable c' := by
  cases hfst : getQatInstance e c with
  | mk x c₁ =>
      cases x with
      | none =>
          rw [numActiveInstances, lookUp, hfst] at h
          cases h
      | some x =>
          rw [numActiveInstances, lookUp, hfst] at h
          obtain ⟨hpos, hle, hnext₁, hx⟩ := getQatInstance_first hnum hfst
          obtain ⟨hnum', hhandles, hseen⟩ := seen_of_lookUp hpos h
          refine ⟨hnum' ▸ hpos, fun i hi => ?_⟩
          rw [hnum'] at hi
          rw [hhandles]
          by_cases hzero : i = 0
          · rw [hzero, ← hnext, hx]
            exact Option.some_ne_none x
          · have hi8 : i ≤ 7 := by
              rw [numActiveInstances] at hle
              omega
            have hlater := hseen i (by omega) hi8
            rwa [hnext₁, hnext, Nat.zero_add, Nat.mod_eq_of_lt hi] at hlater

/-! ### Threads that have ended -/

/-- What holds of the end of a list holds after a change of an element it did not hold of. -/
theorem all_drop_set {α : Type} {l : List α} {p : α → Bool} {k i : ℕ} {x : α} (y : α)
    (hx : l[i]? = some x) (hp : p x = false) (h : (l.drop k).all p = true) :
    ((l.set i y).drop k).all p = true := by
  by_cases hi : i < k
  · rw [List.drop_set_of_lt hi]
    exact h
  · have hmem : x ∈ l.drop k := by
      rw [List.mem_iff_getElem?]
      exact ⟨i - k, by rw [List.getElem?_drop, Nat.add_sub_cancel' (by omega), hx]⟩
    rw [List.all_eq_true] at h
    rw [h x hmem] at hp
    cases hp

theorem all_drop_map {α : Type} {l : List α} {p : α → Bool} {f : α → α} {k : ℕ}
    (hf : ∀ x, p (f x) = p x) : ((l.map f).drop k).all p = (l.drop k).all p := by
  rw [← List.map_drop, List.all_map]
  congr 1
  funext x
  exact hf x

theorem all_drop_modify {α : Type} {l : List α} {p : α → Bool} {f : α → α} {k i : ℕ}
    (hf : ∀ x, p (f x) = p x) : ((l.modify i f).drop k).all p = (l.drop k).all p := by
  rw [Bool.eq_iff_iff, List.all_eq_true, List.all_eq_true]
  simp only [List.mem_iff_getElem?, List.getElem?_drop, List.getElem?_modify]
  constructor
  · rintro h x ⟨n, hn⟩
    by_cases hi : i = k + n
    · rw [← hf]
      exact h (f x) ⟨n, by simp [hi, hn]⟩
    · exact h x ⟨n, by simp [hi, hn]⟩
  · rintro h x ⟨n, hn⟩
    obtain ⟨y, hy, hx⟩ := Option.map_eq_some_iff.mp hn
    have hpy := h y ⟨n, hy⟩
    by_cases hi : i = k + n
    · rw [if_pos hi] at hx
      rw [← hx, hf, hpy]
    · rw [if_neg hi] at hx
      rw [← hx]
      exact hpy

/-- The threads from certain numbers on have ended. -/
structure Ended (context : Context.State ρ) (k l : ℕ) : Prop where
  schedulers : (context.schedulers.drop k).all (fun t => t.pc = .exited) = true
  processors : (context.processors.drop l).all (fun t => t.pc = .exited) = true

theorem ended_iff {s : State ρ} :
    s.ended = true ↔ Ended s.context s.call.schedulers s.call.processors := by
  rw [State.ended, Bool.and_eq_true]
  exact ⟨fun h => ⟨h.1, h.2⟩, fun h => ⟨h.1, h.2⟩⟩

section
variable {context context' : Context.State ρ} {k l : ℕ}

/-- A thread that has not ended is not one of these, and may do what it likes. -/
theorem Ended.setScheduler (h : Ended context k l) {i : ℕ} {t t' : Context.Scheduler ρ}
    (ht : context.schedulers[i]? = some t) (hpc : t.pc ≠ .exited)
    (hsched : context'.schedulers = context.schedulers.set i t')
    (hproc : context'.processors = context.processors) : Ended context' k l where
  schedulers := by
    rw [hsched]
    exact all_drop_set t' ht (by simpa using hpc) h.schedulers
  processors := hproc ▸ h.processors

theorem Ended.setProcessor (h : Ended context k l) {i : ℕ} {t t' : Context.Processor ρ}
    (ht : context.processors[i]? = some t) (hpc : t.pc ≠ .exited)
    (hproc : context'.processors = context.processors.set i t')
    (hsched : context'.schedulers = context.schedulers) : Ended context' k l where
  schedulers := hsched ▸ h.schedulers
  processors := by
    rw [hproc]
    exact all_drop_set t' ht (by simpa using hpc) h.processors

theorem Ended.releaseReturns (h : Ended context k l) : Ended context.releaseReturns k l where
  schedulers := by
    have hsame := all_drop_map (l := context.schedulers) (k := k)
      (p := fun t => decide (t.pc = .exited)) (f := fun t => { t with released := true })
      fun _ => rfl
    exact hsame.trans h.schedulers
  processors := by
    have hsame := all_drop_map (l := context.processors) (k := l)
      (p := fun t => decide (t.pc = .exited)) (f := fun t => { t with released := true })
      fun _ => rfl
    exact hsame.trans h.processors

theorem Ended.flagsCleared (h : Ended context k l) : Ended context.flagsCleared k l := by
  unfold Context.State.flagsCleared
  split
  · exact ⟨h.schedulers, h.processors⟩
  · next c hc =>
      have hsame := all_drop_modify (l := context.processors) (k := l) (i := c)
        (p := fun t => decide (t.pc = .exited))
        (f := fun t => { t with active := false, running := false }) fun _ => rfl
      exact ⟨h.schedulers, hsame.trans h.processors⟩

theorem context_effect {a : Context.Action ρ} (h : Context.step context a = .ok context') :
    Context.Effect context a context' :=
  Context.step_effect (Section.toOption_eq_some.mpr h)

/-- What the threads do while a call is on its way. -/
theorem background_ok {a : Background ρ} (h : Context.step context a.action = .ok context') :
    context'.caller = context.caller ∧
      (context'.contextState = context.contextState ∨ context'.contextState = .running) ∧
      (Ended context k l → Ended context' k l) := by
  cases a with
  | scheduler i =>
      cases context_effect h with
      | starts _ t ht hpc =>
          exact ⟨rfl, .inr rfl, fun hend => hend.setScheduler ht (by simp [hpc]) rfl rfl⟩
      | checks _ t ht hpc | selects _ t _ ht hpc | extracts _ _ t _ _ _ ht hpc
      | submits _ t _ _ ht hpc =>
          exact ⟨rfl, .inl rfl, fun hend => hend.setScheduler ht (by simp [hpc]) rfl rfl⟩
      | api _ _ _ hapi => cases hapi
  | processor i ok m =>
      cases context_effect h with
      | prepares _ _ _ t _ _ ht hpc =>
          have hne : t.pc ≠ .exited := by
            obtain ⟨j, hpc | hpc⟩ := hpc <;> simp [hpc]
          exact ⟨rfl, .inl rfl, fun hend => hend.setProcessor ht hne rfl rfl⟩
      | tests _ _ _ t ht hpc | reads _ _ _ t _ _ _ ht hpc | offloads _ _ _ t _ ht hpc =>
          exact ⟨rfl, .inl rfl, fun hend => hend.setProcessor ht (by simp [hpc]) rfl rfl⟩
      | api _ _ _ hapi => cases hapi
  | acquireBuffer _ | releaseBuffer _ | submit _ _ | submitDirect _ =>
      cases context_effect h with
      | api => exact ⟨rfl, .inl rfl, fun hend => ⟨hend.schedulers, hend.processors⟩⟩

end

/-! ### The condition -/

/-- What is held afterwards is what was held before, and no thread is left. -/
structure Failure.Restored (f : Failure) : Prop where
  held : f.after = f.before
  ended : f.ended = true

/-- The step does not take an exit that leaves something behind. -/
def Undone (s : State ρ) : Action ρ → Prop
  | .acquire memInit salStart e =>
      s.context.contextState = .active ∨ memInit ≠ .success ∨
        if salStart ≠ .success then s.qaeMem = false
        else (lookUp e numActiveInstances s.instances).1 = true
  | .activate manager =>
      manager = .created ∨
        manager = .createFails ∧ s.ended = true ∧ s.call.before = Held.nothing
  | _ => True

theorem undone_acquire {s : State ρ} {memInit salStart : CpaStatus} {e : Enumeration} :
    Undone s (.acquire memInit salStart e) ↔
      s.context.contextState = .active ∨ memInit ≠ .success ∨
        if salStart ≠ .success then s.qaeMem = false
        else (lookUp e numActiveInstances s.instances).1 = true := Iff.rfl

/-- A failing call that goes on as a release: nothing was held before it, and it has started
no thread that is still there. -/
structure Failing (s : State ρ) : Prop where
  before : s.call.before = Held.nothing
  ended : Ended s.context s.call.schedulers s.call.processors
  up : s.context.contextState ≠ .inactive
  caller : s.context.caller = .idle ∨ ∃ i, s.context.caller = .stopping i

structure Sound (s : State ρ) : Prop where
  restored : ∀ f ∈ s.failures, f.Restored
  sal : s.sal = s.qaeMem
  usable : s.qaeMem = true → Usable s.instances
  fresh : s.qaeMem = false → s.instances.numInstances = 0 ∧ s.instances.nextInstance = 0
  failing : s.failing = true → Failing s

theorem Sound.initial : Sound (State.initial : State ρ) where
  restored _ hf := absurd hf List.not_mem_nil
  sal := rfl
  usable := nofun
  fresh _ := ⟨rfl, rfl⟩
  failing := nofun

section
variable {s s' : State ρ}

/-- What a call of acquire does. -/
inductive Acquired (s : State ρ) (memInit salStart : CpaStatus) (e : Enumeration) :
    State ρ → Prop
  | already {call : Call} {context : Context.State ρ}
      (hstate : s.context.contextState = .active) :
      Acquired s memInit salStart e { s with call := call, context := context }
  | memFails (f : Failure) {call : Call} {context : Context.State ρ}
      (hstate : s.context.contextState ≠ .active) (hmem : memInit ≠ .success)
      (hf : f.before = s.held ∧ f.after = s.held ∧ f.ended = true) :
      Acquired s memInit salStart e { s with
        call := call, context := context, failing := false, failures := f :: s.failures }
  | serviceFails (f : Failure) {call : Call} {context : Context.State ρ}
      (hstate : s.context.contextState ≠ .active) (hmem : memInit = .success)
      (hsal : salStart ≠ .success)
      (hf : f.before = s.held ∧ f.after = { s.held with qaeMem := false } ∧ f.ended = true) :
      Acquired s memInit salStart e { s with
        call := call, context := context, qaeMem := false, failing := false
        failures := f :: s.failures }
  | noEndpoint (f : Failure) {call : Call} {context : Context.State ρ} {c : Instances}
      (hstate : s.context.contextState ≠ .active) (hmem : memInit = .success)
      (hsal : salStart = .success) (hfound : lookUp e numActiveInstances s.instances = (false, c))
      (hf : f.before = s.held ∧ f.after.qaeMem = true ∧ f.after.sal = true) :
      Acquired s memInit salStart e { s with
        call := call, context := context, qaeMem := true, sal := true, instances := c
        failing := false, failures := f :: s.failures }
  | begins {call : Call} {context : Context.State ρ} {c : Instances}
      (hstate : s.context.contextState ≠ .active) (hmem : memInit = .success)
      (hsal : salStart = .success) (hfound : lookUp e numActiveInstances s.instances = (true, c)) :
      Acquired s memInit salStart e { s with
        call := call, context := context, qaeMem := true, sal := true, instances := c }

/-- A call that is refused leaves the session as it is. -/
theorem refused_ok {startup : Context.Startup} (hstartup : startup ≠ .succeeds)
    (hstate : s.context.contextState ≠ .active) {context : Context.State ρ}
    (h : Context.step s.context (.acquire startup) = .ok context) :
    context = { s.context with quiet := false, returned := some .fail } := by
  cases context_effect h with
  | already _ _ hactive => exact absurd hactive hstate
  | refused => rfl
  | begins => exact absurd rfl hstartup
  | api _ _ _ hapi => cases hapi

theorem acquire_ok {memInit salStart : CpaStatus} {e : Enumeration}
    (h : acquire s memInit salStart e = .ok s') :
    s.failing = false ∧ Acquired s memInit salStart e s' := by
  obtain ⟨hfailing, h⟩ := Context.of_waitWhile h
  refine ⟨by simpa using hfailing, ?_⟩
  simp only at h
  by_cases hstate : s.context.contextState = .active
  · rw [if_pos hstate] at h
    obtain ⟨context, -, h⟩ := Section.bind_eq_ok.mp h
    cases h
    exact .already hstate
  rw [if_neg hstate] at h
  by_cases hmem : memInit = .success
  · rw [if_neg (not_not.mpr hmem)] at h
    by_cases hsal : salStart = .success
    · rw [if_neg (not_not.mpr hsal)] at h
      cases hfound : lookUp e numActiveInstances s.instances with
      | mk found c =>
          rw [hfound] at h
          cases found with
          | true =>
              obtain ⟨context, -, h⟩ := Section.bind_eq_ok.mp h
              cases h
              exact .begins hstate hmem hsal hfound
          | false =>
              obtain ⟨context, -, h⟩ := Section.bind_eq_ok.mp h
              cases h
              exact .noEndpoint _ hstate hmem hsal hfound ⟨rfl, rfl, rfl⟩
    · rw [if_pos hsal] at h
      obtain ⟨context, hcontext, h⟩ := Section.bind_eq_ok.mp h
      cases h
      have hrefused := refused_ok (by simp) hstate hcontext
      refine .serviceFails _ hstate hmem hsal ⟨rfl, ?_, ?_⟩
      · simp [State.held, hrefused]
      · simp [State.ended, hrefused]
  · rw [if_pos hmem] at h
    obtain ⟨context, hcontext, h⟩ := Section.bind_eq_ok.mp h
    cases h
    have hrefused := refused_ok (by simp) hstate hcontext
    refine .memFails _ hstate hmem ⟨rfl, ?_, ?_⟩
    · simp [State.held, hrefused]
    · simp [State.ended, hrefused]

/-! ### What a call that fails at once leaves behind -/

/-- In a session that is up no look-up fails. -/
theorem Sound.lookUp_fails (h : Sound s) {e : Enumeration} {n : ℕ} {c : Instances}
    (hfound : lookUp e n s.instances = (false, c)) : s.qaeMem = false := by
  by_contra hup
  obtain ⟨k, hk⟩ := (h.usable (by simpa using hup)).lookUp (e := e) (n := n)
  rw [hk] at hfound
  cases hfound

/-- The handles are there when a call has begun. -/
theorem Sound.lookUp_succeeds (h : Sound s) {e : Enumeration} {c : Instances}
    (hfound : lookUp e numActiveInstances s.instances = (true, c)) : Usable c := by
  cases hup : s.qaeMem with
  | false => exact usable_of_lookUp (h.fresh hup).1 (h.fresh hup).2 hfound
  | true =>
      have husable := h.usable hup
      obtain ⟨k, hk⟩ := husable.lookUp (e := e) (n := numActiveInstances)
      rw [hk] at hfound
      cases hfound
      exact ⟨husable.pos, husable.handles⟩

/-- A call that fails at once leaves nothing behind exactly when it meets the condition. -/
theorem Sound.restored_iff (h : Sound s) {memInit salStart : CpaStatus} {e : Enumeration}
    (hs : acquire s memInit salStart e = .ok s') {f : Failure}
    (hf : s'.failures = f :: s.failures) :
    f.Restored ↔ Undone s (.acquire memInit salStart e) := by
  have hone : ∀ g : Failure, g :: s.failures = f :: s.failures → f = g := fun g hg =>
    (List.cons.inj hg).1.symm
  rw [undone_acquire]
  cases (acquire_ok hs).2 with
  | already hstate => exact absurd (congrArg List.length hf) (by simp)
  | begins hstate => exact absurd (congrArg List.length hf) (by simp)
  | memFails _ hstate hmem hg =>
      obtain rfl := hone _ hf
      exact ⟨fun _ => .inr (.inl hmem), fun _ => ⟨hg.2.1.trans hg.1.symm, hg.2.2⟩⟩
  | serviceFails _ hstate hmem hsal hg =>
      obtain rfl := hone _ hf
      rw [if_pos hsal]
      constructor
      · intro hr
        have hheld := hr.held
        rw [hg.2.1, hg.1] at hheld
        exact .inr (.inr (congrArg Held.qaeMem hheld).symm)
      · rintro (hactive | hmem' | hup)
        · exact absurd hactive hstate
        · exact absurd hmem hmem'
        · refine ⟨?_, hg.2.2⟩
          rw [hg.2.1, hg.1, State.held, hup]
  | noEndpoint _ hstate hmem hsal hfound hg =>
      obtain rfl := hone _ hf
      rw [if_neg (not_not.mpr hsal), hfound]
      constructor
      · intro hr
        have hup := h.lookUp_fails hfound
        have hqae := congrArg Held.qaeMem hr.held
        rw [hg.2.1, hg.1] at hqae
        simp [State.held, hup] at hqae
      · rintro (hactive | hmem' | hno)
        · exact absurd hactive hstate
        · exact absurd hmem hmem'
        · cases hno

/-! ### Runs -/

theorem Sound.acquire (h : Sound s) {memInit salStart : CpaStatus} {e : Enumeration}
    (hok : Undone s (.acquire memInit salStart e)) (hs : acquire s memInit salStart e = .ok s') :
    Sound s' := by
  obtain ⟨hfailing, hacq⟩ := acquire_ok hs
  have hcons : ∀ f, s'.failures = f :: s.failures → ∀ g ∈ f :: s.failures, g.Restored := by
    intro f hf g hg
    rcases List.mem_cons.mp hg with rfl | hg
    · exact (h.restored_iff hs hf).mpr hok
    · exact h.restored g hg
  cases hacq with
  | already hstate => exact { h with failing := fun hc => by simp [hfailing] at hc }
  | memFails _ hstate hmem hf => exact { h with
      restored := hcons _ rfl, failing := fun hc => by cases hc }
  | serviceFails _ hstate hmem hsal hf =>
      have hup : s.qaeMem = false := by
        rcases hok with hactive | hmem' | hup
        · exact absurd hactive hstate
        · exact absurd hmem hmem'
        · rwa [if_pos hsal] at hup
      exact {
        restored := hcons _ rfl
        sal := h.sal.trans hup
        usable := fun hc => by cases hc
        fresh := fun _ => h.fresh hup
        failing := fun hc => by cases hc }
  | noEndpoint _ hstate hmem hsal hfound hf =>
      rcases hok with hactive | hmem' | hfound'
      · exact absurd hactive hstate
      · exact absurd hmem hmem'
      · rw [if_neg (not_not.mpr hsal), hfound] at hfound'
        cases hfound'
  | begins hstate hmem hsal hfound => exact {
      restored := h.restored
      sal := rfl
      usable := fun _ => h.lookUp_succeeds hfound
      fresh := fun hc => by cases hc
      failing := fun hc => by simp [hfailing] at hc }

/-- A call that cannot create the scheduler begins to release with nothing of its own left. -/
theorem Sound.activate (h : Sound s) {manager : Context.Manager}
    (hok : Undone s (.activate manager)) (hs : activate s manager = .ok s') : Sound s' := by
  obtain ⟨context, hcontext, hs⟩ := Section.bind_eq_ok.mp hs
  cases hs
  refine { h with failing := fun hc => ?_ }
  obtain ⟨rfl, hended, hbefore⟩ := hok.resolve_left fun hcreated => by simp [hcreated] at hc
  cases context_effect hcontext with
  | activate _ hcaller =>
      have hended := ended_iff.mp hended
      exact ⟨hbefore, ⟨hended.schedulers, hended.processors⟩, by simp [Context.State.activated],
        .inl rfl⟩
  | api _ _ _ hapi => cases hapi

theorem Sound.initialise (h : Sound s) {created : Bool} {context : Context.State ρ}
    (hs : Context.step s.context (.initialise created) = .ok context) :
    Sound { s with context := context } := by
  refine { h with failing := fun hc => ?_ }
  cases context_effect hs with
  | initialise _ hcaller =>
      rcases (h.failing hc).caller with hidle | ⟨i, hstop⟩
      · rw [hidle] at hcaller
        cases hcaller
      · rw [hstop] at hcaller
        cases hcaller
  | api _ _ _ hapi => cases hapi

theorem Sound.release (h : Sound s) (hs : release s = .ok s') : Sound s' := by
  obtain ⟨context, hcontext, hs⟩ := Section.bind_eq_ok.mp hs
  cases context_effect hcontext with
  | nothing hidle hstate =>
      have hnot : s.failing = false := by
        by_contra hc
        exact (h.failing (by simpa using hc)).up hstate
      dsimp only at hs
      rw [if_neg (by simp [hnot])] at hs
      cases hs
      exact { h with failing := fun hc => by simp [hnot] at hc }
  | stops hidle hstate =>
      have hcaller : ∃ i, s.context.flagsCleared.caller = .stopping i := by
        unfold Context.State.flagsCleared
        split
        · exact ⟨_, rfl⟩
        · exact ⟨_, rfl⟩
      have hstate' : s.context.flagsCleared.contextState = s.context.contextState := by
        unfold Context.State.flagsCleared
        split <;> rfl
      dsimp only at hs
      rw [if_neg (by obtain ⟨i, hi⟩ := hcaller; simp [hi])] at hs
      cases hs
      refine { h with failing := fun hc => ?_ }
      have hf := h.failing hc
      exact ⟨hf.before, hf.ended.flagsCleared, hstate' ▸ hf.up, .inr hcaller⟩
  | api _ _ _ hapi => cases hapi

theorem Sound.stopInstance (h : Sound s) {context : Context.State ρ}
    (hs : Context.step s.context .stopInstance = .ok context) :
    Sound { s with context := context } := by
  refine { h with failing := fun hc => ?_ }
  have hf := h.failing hc
  cases context_effect hs with
  | stopInstance i hcaller =>
      exact ⟨hf.before, ⟨hf.ended.schedulers, hf.ended.processors⟩, hf.up, .inr ⟨_, rfl⟩⟩
  | api _ _ _ hapi => cases hapi

/-- At the end of a release nothing is held. -/
theorem Sound.deactivate (h : Sound s) (hs : deactivate s = .ok s') : Sound s' := by
  obtain ⟨context, hcontext, hs⟩ := Section.bind_eq_ok.mp hs
  cases context_effect hcontext with
  | deactivate hcaller =>
      cases hfailing : s.failing with
      | false =>
          dsimp only at hs
          rw [if_neg (by simp [hfailing])] at hs
          cases hs
          exact {
            restored := h.restored
            sal := rfl
            usable := fun hc => by cases hc
            fresh := fun _ => ⟨rfl, rfl⟩
            failing := fun hc => by simp [hfailing] at hc }
      | true =>
          dsimp only at hs
          rw [if_pos (by simp [hfailing])] at hs
          cases hs
          have hf := h.failing hfailing
          refine {
            restored := fun g hg => ?_
            sal := rfl
            usable := fun hc => by cases hc
            fresh := fun _ => ⟨rfl, rfl⟩
            failing := fun hc => by cases hc }
          rcases List.mem_cons.mp hg with rfl | hg
          · have hended := hf.ended.releaseReturns
            exact ⟨hf.before.symm, ended_iff.mpr ⟨hended.schedulers, hended.processors⟩⟩
          · exact h.restored g hg
  | api _ _ _ hapi => cases hapi

theorem Sound.background (h : Sound s) {a : Background ρ} {context : Context.State ρ}
    (hs : Context.step s.context a.action = .ok context) : Sound { s with context := context } := by
  obtain ⟨hcaller, hstate, hended⟩ := background_ok hs
  refine { h with failing := fun hc => ?_ }
  have hf := h.failing hc
  refine ⟨hf.before, hended hf.ended, ?_, hcaller ▸ hf.caller⟩
  show context.contextState ≠ .inactive
  rcases hstate with hsame | hrunning
  · rw [hsame]
    exact hf.up
  · simp [hrunning]

theorem Sound.step (h : Sound s) {a : Action ρ} (hok : Undone s a) (hs : step s a = .ok s') :
    Sound s' := by
  cases a with
  | acquire memInit salStart e => exact h.acquire hok hs
  | activate manager => exact h.activate hok hs
  | release => exact h.release hs
  | deactivate => exact h.deactivate hs
  | initialise created =>
      obtain ⟨context, hcontext, hs⟩ := Section.bind_eq_ok.mp hs
      cases hs
      exact h.initialise hcontext
  | stopInstance =>
      obtain ⟨context, hcontext, hs⟩ := Section.bind_eq_ok.mp hs
      cases hs
      exact h.stopInstance hcontext
  | background a =>
      obtain ⟨context, hcontext, hs⟩ := Section.bind_eq_ok.mp hs
      cases hs
      exact h.background hcontext

theorem step_ok {a : Action ρ} (h : (system ρ).step s a = some s') : step s a = .ok s' :=
  Section.toOption_eq_some.mp h

theorem sound (h : (system ρ).ReachableIf Undone s) : Sound s := by
  refine h.invariant ?_ fun s a s' hs hok hstep => hs.step hok (step_ok hstep)
  rintro s rfl
  exact .initial

/-- **As long as no call takes an exit that leaves something behind, none does.** -/
theorem failures_restored (h : (system ρ).ReachableIf Undone s) :
    ∀ f ∈ s.failures, f.Restored :=
  (sound h).restored

end

/-- An enumeration of `num` instances, of which the one at `bad` gives no information. -/
def enumerate (num : UInt16) (bad : ℕ) : Enumeration where
  status := .success
  num := num
  handles i := some i
  info i := if i = bad then .fail else .success

/-- The memory driver fails, and then the SAL process. -/
theorem failures_restored_two : ∃ s : State ℕ,
    s.failures.length = 2 ∧ ∀ f ∈ s.failures, f.Restored :=
  ⟨_, rfl, failures_restored (.step (.step (.init rfl)
    (a := .acquire .fail .success (enumerate 8 8)) (.inr (.inl (by decide))) rfl)
    (a := .acquire .success .fail (enumerate 8 8)) (.inr (.inr rfl)) rfl)⟩

/-- The calls up to the start of the scheduler. -/
def begun : List (Action ℕ) := [.acquire .success .success (enumerate 8 8), .initialise true]

/-- No scheduler can be created, and the call goes on as a release. -/
def noScheduler : List (Action ℕ) :=
  List.flatten [begun, [.activate .createFails],
    List.replicate 16 (.background (.processor 0 true 0)), [.release],
    List.replicate 8 .stopInstance, [.deactivate]]

/-- The SAL process does not start again while a session is up. -/
def noService : List (Action ℕ) :=
  List.flatten [begun, [.activate .created, .background (.scheduler 0),
    .acquire .success .fail (enumerate 8 8)]]

/-- The third of four instances gives no information: the driver and the process stay, and so
does the number of instances.  No scheduler can be created: the processing thread stays.  The
SAL process fails to start while a session is up: the session loses its memory. -/
theorem not_failures_restored_four :
    let endpoint : Failure := ⟨Held.nothing, ⟨true, true, false, .inactive, 4, 0⟩, true⟩
    let manager : Failure := ⟨Held.nothing, Held.nothing, false⟩
    let service : Failure :=
      ⟨⟨true, true, false, .running, 8, 7⟩, ⟨false, true, false, .running, 8, 7⟩, true⟩
    (∃ s : State ℕ, (system ℕ).Reachable s ∧ s.failures = [endpoint]) ∧ ¬ endpoint.Restored ∧
      (∃ s : State ℕ, (system ℕ).Reachable s ∧ s.failures = [manager]) ∧ ¬ manager.Restored ∧
      (∃ s : State ℕ, (system ℕ).Reachable s ∧ s.failures = [service]) ∧ ¬ service.Restored := by
  intro endpoint manager service
  have hendpoint : ((system ℕ).run State.initial
      [.acquire .success .success (enumerate 4 2)]).map State.failures = some [endpoint] := rfl
  have hmanager : ((system ℕ).run State.initial noScheduler).map State.failures
      = some [manager] := by rfl
  have hservice : ((system ℕ).run State.initial noService).map State.failures
      = some [service] := by rfl
  refine ⟨TransitionSystem.reachable_of_map_run _ rfl hendpoint, fun h => ?_,
    TransitionSystem.reachable_of_map_run _ rfl hmanager, fun h => ?_,
    TransitionSystem.reachable_of_map_run _ rfl hservice, fun h => ?_⟩
  · exact absurd h.held (by decide)
  · exact absurd h.ended (by decide)
  · exact absurd h.held (by decide)

end Ipcl.HeQat.Devices
