/-
Threads that sleep on condition variables.

A system says what its critical sections do, and which condition variable a section goes to
sleep on when it cannot be passed yet.  Over it stands the bookkeeping of the threads: the
calls that are awake, and those that are asleep with the variable each of them sleeps on.  A
section that is passed may signal one variable, and then any one of the threads asleep there
is woken, if there is one.  It has to take the mutex again and looks at its condition anew, so
it may well go back to sleep.  A thread may also be woken for no reason.

No wake-up is lost if nobody sleeps beside what he is waiting for.  There are two rules for
it.  Where at most one thread sleeps on a variable, its condition still holds as long as every
step that might end it signals the variable.  Where several threads compete for what comes in
units, there are as many of them awake as there are units, as long as every unit that is added
is signalled.

That the threads get somewhere is then a game against the signals: some calls are chosen, and
wherever a signal has a choice it may take the worst.
-/
import Ipcl.Lib.Transition

/-- Critical sections: whose they are, what they wait for, and what they signal. -/
structure Monitor (σ α κ θ : Type) where
  sys : TransitionSystem σ α
  thread : α → θ
  /-- the variable on which the section goes to sleep -/
  waits : σ → α → Option κ
  /-- the variable that is signalled when it is passed -/
  signals : σ → α → Option κ

namespace Monitor

variable {σ α κ θ : Type}

structure State (σ α κ : Type) where
  base : σ
  inside : List α
  asleep : List (α × κ)

inductive Action (α : Type) where
  /-- A thread comes to a section. -/
  | enter (a : α)
  /-- It passes it, and its signal wakes `woken`. -/
  | run (a : α) (woken : Option α)
  /-- It goes to sleep. -/
  | wait (a : α)
  /-- It wakes for no reason. -/
  | wake (a : α)

variable [DecidableEq α] [DecidableEq κ] [DecidableEq θ] (M : Monitor σ α κ θ)

/-- The calls in progress. -/
def State.calls (s : State σ α κ) : List α := s.inside ++ s.asleep.map Prod.fst

/-- A thread that is at a section can pass it, or would go to sleep there. -/
def At (s : σ) (a : α) : Prop := (M.sys.step s a).isSome ∨ (M.waits s a).isSome

instance (s : σ) (a : α) : Decidable (M.At s a) := by
  unfold At
  infer_instance

/-- Whom a signal may wake. -/
def Wakes (asleep : List (α × κ)) : Option κ → Option α → Prop
  | none, woken => woken = none
  | some k, none => ∀ x ∈ asleep, x.2 ≠ k
  | some k, some a => (a, k) ∈ asleep

instance (asleep : List (α × κ)) : (k : Option κ) → (woken : Option α) →
    Decidable (Wakes asleep k woken)
  | none, woken => inferInstanceAs (Decidable (woken = none))
  | some k, none => inferInstanceAs (Decidable (∀ x ∈ asleep, x.2 ≠ k))
  | some k, some a => inferInstanceAs (Decidable ((a, k) ∈ asleep))

/-- Those that stay asleep. -/
def stillAsleep (asleep : List (α × κ)) : Option κ → Option α → List (α × κ)
  | some k, some a => asleep.erase (a, k)
  | _, _ => asleep

/-- One step of one thread. -/
def step (s : State σ α κ) : Action α → Option (State σ α κ)
  | .enter a =>
      if M.At s.base a ∧ ∀ b ∈ s.calls, M.thread b ≠ M.thread a then
        some { s with inside := a :: s.inside }
      else none
  | .run a woken =>
      if a ∈ s.inside ∧ Wakes s.asleep (M.signals s.base a) woken then
        (M.sys.step s.base a).map fun base => {
          base := base
          inside := woken.toList ++ s.inside.erase a
          asleep := stillAsleep s.asleep (M.signals s.base a) woken }
      else none
  | .wait a =>
      match M.waits s.base a with
      | some k =>
          if a ∈ s.inside then
            some { s with inside := s.inside.erase a, asleep := (a, k) :: s.asleep }
          else none
      | none => none
  | .wake a =>
      match s.asleep.find? fun x => x.1 = a with
      | some x => some { s with inside := a :: s.inside, asleep := s.asleep.erase x }
      | none => none

/-- The system with its sleepers. -/
def system : TransitionSystem (State σ α κ) (Action α) where
  init s := M.sys.init s.base ∧ s.inside = [] ∧ s.asleep = []
  step := M.step

/-! ### What a step can do -/

/-- The effect of a step, with what enables it. -/
inductive Effect (s : State σ α κ) : Action α → State σ α κ → Prop
  | enter {a : α} (hat : M.At s.base a) (hidle : ∀ b ∈ s.calls, M.thread b ≠ M.thread a) :
      Effect s (.enter a) { s with inside := a :: s.inside }
  | run {a : α} {base : σ} (hin : a ∈ s.inside) (hstep : M.sys.step s.base a = some base)
      (hnone : ∀ x ∈ s.asleep, M.signals s.base a ≠ some x.2) :
      Effect s (.run a none) { s with base := base, inside := s.inside.erase a }
  | signal {a b : α} {k : κ} {base : σ} (hin : a ∈ s.inside)
      (hstep : M.sys.step s.base a = some base) (hsignal : M.signals s.base a = some k)
      (hmem : (b, k) ∈ s.asleep) :
      Effect s (.run a (some b))
        { base := base, inside := b :: s.inside.erase a, asleep := s.asleep.erase (b, k) }
  | wait {a : α} {k : κ} (hin : a ∈ s.inside) (hwaits : M.waits s.base a = some k) :
      Effect s (.wait a) { s with inside := s.inside.erase a, asleep := (a, k) :: s.asleep }
  | wake {a : α} {k : κ} (hmem : (a, k) ∈ s.asleep) :
      Effect s (.wake a) { s with inside := a :: s.inside, asleep := s.asleep.erase (a, k) }

variable {M} {s s' : State σ α κ}

theorem step_effect {x : Action α} (h : M.system.step s x = some s') : M.Effect s x s' := by
  change M.step s x = some s' at h
  cases x with
  | enter a =>
      simp only [step, Option.ite_none_right_eq_some, Option.some.injEq] at h
      obtain ⟨⟨hat, hidle⟩, rfl⟩ := h
      exact .enter hat hidle
  | run a woken =>
      simp only [step, Option.ite_none_right_eq_some, Option.map_eq_some_iff] at h
      obtain ⟨⟨hin, hwakes⟩, base, hstep, rfl⟩ := h
      cases hsignal : M.signals s.base a with
      | none =>
          rw [hsignal] at hwakes
          obtain rfl : woken = none := hwakes
          exact .run hin hstep fun x _ hc => by rw [hsignal] at hc; cases hc
      | some k =>
          rw [hsignal] at hwakes
          cases woken with
          | none =>
              refine .run hin hstep fun x hx hc => hwakes x hx ?_
              rw [hsignal] at hc
              exact (Option.some.inj hc).symm
          | some b => exact .signal hin hstep hsignal hwakes
  | wait a =>
      cases hwaits : M.waits s.base a with
      | none => simp only [step, hwaits, reduceCtorEq] at h
      | some k =>
          simp only [step, hwaits, Option.ite_none_right_eq_some, Option.some.injEq] at h
          obtain ⟨hin, rfl⟩ := h
          exact .wait hin hwaits
  | wake a =>
      cases hfind : s.asleep.find? fun x => x.1 = a with
      | none => simp only [step, hfind, reduceCtorEq] at h
      | some x =>
          simp only [step, hfind, Option.some.injEq] at h
          subst h
          obtain rfl : x.1 = a := by simpa using List.find?_some hfind
          exact .wake (List.mem_of_find?_eq_some hfind)

/-- A section that is passed wakes somebody. -/
theorem exists_run {a : α} {base : σ} (hin : a ∈ s.inside)
    (hstep : M.sys.step s.base a = some base) :
    ∃ woken u, M.system.step s (.run a woken) = some u := by
  suffices h : ∃ woken, Wakes s.asleep (M.signals s.base a) woken by
    obtain ⟨woken, hwakes⟩ := h
    exact ⟨woken, Option.isSome_iff_exists.mp (by simp [system, step, hin, hwakes, hstep])⟩
  cases M.signals s.base a with
  | none => exact ⟨none, rfl⟩
  | some k =>
      by_cases hnone : ∀ x ∈ s.asleep, x.2 ≠ k
      · exact ⟨none, hnone⟩
      · push Not at hnone
        obtain ⟨x, hx, rfl⟩ := hnone
        exact ⟨some x.1, hx⟩

theorem enter_run {a : α} (hat : M.At s.base a) (hidle : ∀ b ∈ s.calls, M.thread b ≠ M.thread a) :
    M.system.step s (.enter a) = some { s with inside := a :: s.inside } := by
  change M.step s (.enter a) = _
  rw [step, if_pos ⟨hat, hidle⟩]

/-! ### Calls in progress -/

omit [DecidableEq κ] in
/-- The calls before a section is passed, and after it. -/
theorem calls_run_perm {a : α} (hin : a ∈ s.inside) {base : σ} :
    s.calls.Perm (a :: State.calls { s with base := base, inside := s.inside.erase a }) :=
  (List.perm_cons_erase hin).append_right (s.asleep.map Prod.fst)

theorem asleep_perm {b : α} {k : κ} (hmem : (b, k) ∈ s.asleep) :
    (s.asleep.map Prod.fst).Perm (b :: (s.asleep.erase (b, k)).map Prod.fst) :=
  (List.perm_cons_erase hmem).map Prod.fst

/-- A thread that is woken stays in its call. -/
theorem calls_wake_perm {b : α} {k : κ} (hmem : (b, k) ∈ s.asleep) (l : List α) {base : σ} :
    (l ++ s.asleep.map Prod.fst).Perm
      (State.calls { base := base, inside := b :: l, asleep := s.asleep.erase (b, k) }) :=
  ((asleep_perm hmem).append_left l).trans List.perm_middle

omit [DecidableEq κ] in
/-- A thread that goes to sleep stays in its call. -/
theorem calls_wait_perm {a : α} {k : κ} (hin : a ∈ s.inside) :
    s.calls.Perm
      (State.calls { s with inside := s.inside.erase a, asleep := (a, k) :: s.asleep }) :=
  have hrun : s.calls.Perm (a :: State.calls { s with inside := s.inside.erase a }) :=
    calls_run_perm hin
  hrun.trans List.perm_middle.symm

omit [DecidableEq θ] in
/-- What a step does to the calls in progress: nothing, or one more, or one less. -/
theorem calls_step {x : Action α} (h : M.Effect s x s') :
    s'.base = s.base ∧ s.calls.Perm s'.calls ∨
      (∃ a, s'.base = s.base ∧ M.At s.base a ∧ (∀ b ∈ s.calls, M.thread b ≠ M.thread a) ∧
        s'.calls = a :: s.calls) ∨
      ∃ a, M.sys.step s.base a = some s'.base ∧ s.calls.Perm (a :: s'.calls) := by
  cases h with
  | enter hat hidle => exact .inr (.inl ⟨_, rfl, hat, hidle, rfl⟩)
  | run hin hstep _ => exact .inr (.inr ⟨_, hstep, calls_run_perm hin⟩)
  | signal hin hstep _ hmem =>
      refine .inr (.inr ⟨_, hstep, ((List.perm_cons_erase hin).append_right _).trans (.cons _ ?_)⟩)
      exact calls_wake_perm hmem _
  | wait hin _ => exact .inl ⟨rfl, calls_wait_perm hin⟩
  | wake hmem => exact .inl ⟨rfl, calls_wake_perm hmem _⟩

/-- No thread is in two calls. -/
theorem threads_nodup (h : M.system.Reachable s) : (s.calls.map M.thread).Nodup := by
  refine h.invariant (I := fun s => (s.calls.map M.thread).Nodup) ?_ ?_
  · rintro t ⟨-, hinside, hasleep⟩
    rw [State.calls, hinside, hasleep]
    exact List.nodup_nil
  · intro t x t' hnd _ hs
    rcases calls_step (step_effect hs) with ⟨-, hperm⟩ | ⟨a, -, -, hidle, hcalls⟩ | ⟨a, -, hperm⟩
    · exact (hperm.map M.thread).nodup_iff.mp hnd
    · rw [hcalls, List.map_cons, List.nodup_cons]
      refine ⟨fun hc => ?_, hnd⟩
      obtain ⟨b, hb, hba⟩ := List.mem_map.mp hc
      exact hidle b hb hba
    · exact (List.nodup_cons.mp ((hperm.map M.thread).nodup_iff.mp hnd)).2

/-- Two calls of one thread are one. -/
theorem calls_unique (h : M.system.Reachable s) {a b : α} (ha : a ∈ s.calls) (hb : b ∈ s.calls)
    (hab : M.thread a = M.thread b) : a = b :=
  List.inj_on_of_nodup_map (threads_nodup h) ha hb hab

/-- The system below takes steps of its own. -/
theorem reachable_base (h : M.system.Reachable s) : M.sys.Reachable s.base := by
  refine h.invariant (I := fun s => M.sys.Reachable s.base) ?_ ?_
  · rintro t ⟨hinit, -⟩
    exact .init hinit
  · intro t x t' ht _ hs
    rcases calls_step (step_effect hs) with ⟨hb, -⟩ | ⟨a, hb, -⟩ | ⟨a, hstep, -⟩
    · rwa [hb]
    · rwa [hb]
    · exact ht.step trivial hstep

/-- A property of a thread at its section that the other threads do not end. -/
theorem calls_at {P : σ → α → Prop} (hat : ∀ s a, M.sys.Reachable s → M.At s a → P s a)
    (hstep : ∀ s b s' a, M.sys.Reachable s → M.sys.step s b = some s' →
      M.thread b ≠ M.thread a → P s a → P s' a) (h : M.system.Reachable s) :
    ∀ a ∈ s.calls, P s.base a := by
  induction h with
  | init h =>
      obtain ⟨-, hinside, hasleep⟩ := h
      intro a ha
      rw [State.calls, hinside, hasleep] at ha
      cases ha
  | @step t t' x hreach _ hs ih =>
      rcases calls_step (step_effect hs) with ⟨hb, hperm⟩ | ⟨a, hb, hata, -, hcalls⟩ |
        ⟨a, hbase, hperm⟩
      · intro c hc
        rw [hb]
        exact ih c (hperm.mem_iff.mpr hc)
      · intro c hc
        rw [hb]
        rw [hcalls] at hc
        rcases List.mem_cons.mp hc with rfl | hc
        · exact hat _ _ (reachable_base hreach) hata
        · exact ih c hc
      · intro c hc
        have hnd := (hperm.map M.thread).nodup_iff.mp (threads_nodup hreach)
        refine hstep _ _ _ _ (reachable_base hreach) hbase ?_
          (ih c (hperm.mem_iff.mpr (List.mem_cons_of_mem a hc)))
        exact fun heq => (List.nodup_cons.mp hnd).1 (heq ▸ List.mem_map_of_mem hc)

/-! ### Fewer calls -/

/-- The monitor in which a thread comes only to the calls that are allowed. -/
def restrict (M : Monitor σ α κ θ) (allows : σ → α → Prop) [∀ s a, Decidable (allows s a)] :
    Monitor σ α κ θ where
  sys := M.sys.restrict allows
  thread := M.thread
  waits s a := if allows s a then M.waits s a else none
  signals := M.signals

section
variable {allows : σ → α → Prop} [∀ s a, Decidable (allows s a)]

omit [DecidableEq α] [DecidableEq κ] [DecidableEq θ] in
theorem restrict_at {s : σ} {a : α} : (M.restrict allows).At s a ↔ allows s a ∧ M.At s a := by
  by_cases h : allows s a <;> simp [At, restrict, TransitionSystem.restrict, h]

/-- What its threads can do, they can do in the other. -/
theorem step_of_restrict {x : Action α} (h : (M.restrict allows).system.step s x = some s') :
    M.system.step s x = some s' := by
  change (M.restrict allows).step s x = some s' at h
  change M.step s x = some s'
  cases x with
  | enter a =>
      simp only [step, restrict_at, Option.ite_none_right_eq_some] at h ⊢
      exact ⟨⟨h.1.1.2, h.1.2⟩, h.2⟩
  | run a woken =>
      simp only [step, Option.ite_none_right_eq_some, Option.map_eq_some_iff] at h ⊢
      obtain ⟨hin, base, hbase, hs⟩ := h
      exact ⟨hin, base, (TransitionSystem.restrict_step.mp hbase).2, hs⟩
  | wait a =>
      by_cases hallows : allows s.base a
      · simpa only [step, restrict, if_pos hallows] using h
      · simp only [step, restrict, if_neg hallows, reduceCtorEq] at h
  | wake a => exact h

theorem reachable_of_restrict (h : (M.restrict allows).system.Reachable s) :
    M.system.Reachable s :=
  h.invariant (fun _ hinit => .init hinit) fun _ _ _ hs _ hstep =>
    hs.step trivial (step_of_restrict hstep)

end

/-! ### No wake-up is lost -/

omit [DecidableEq α] [DecidableEq κ] in
theorem mem_calls_of_inside {a : α} (hin : a ∈ s.inside) : a ∈ s.calls :=
  List.mem_append_left _ hin

omit [DecidableEq α] [DecidableEq κ] in
theorem mem_calls_of_asleep {a : α} {k : κ} (hmem : (a, k) ∈ s.asleep) : a ∈ s.calls :=
  List.mem_append_right _ (List.mem_map_of_mem hmem)

/-- A thread that is asleep is not at work elsewhere. -/
theorem thread_ne (h : M.system.Reachable s) {a b : α} {k : κ} (hb : b ∈ s.inside)
    (ha : (a, k) ∈ s.asleep) : M.thread b ≠ M.thread a := by
  have hnd := threads_nodup h
  rw [State.calls, List.map_append, List.nodup_append] at hnd
  exact hnd.2.2 _ (List.mem_map_of_mem hb) _ (List.mem_map_of_mem (List.mem_map_of_mem ha))

theorem asleep_nodup (h : M.system.Reachable s) : s.asleep.Nodup := by
  have hnd := threads_nodup h
  rw [State.calls, List.map_append, List.nodup_append] at hnd
  exact (hnd.2.1.of_map M.thread).of_map Prod.fst

/-- Who sleeps has gone to sleep. -/
theorem exists_waits (h : M.system.Reachable s) {a : α} {k : κ} (hmem : (a, k) ∈ s.asleep) :
    ∃ t, M.sys.Reachable t ∧ M.waits t a = some k := by
  induction h generalizing a k with
  | init h =>
      rw [h.2.2] at hmem
      cases hmem
  | step hreach _ hs ih =>
      cases step_effect hs with
      | enter _ _ => exact ih hmem
      | run _ _ _ => exact ih hmem
      | signal _ _ _ _ => exact ih (List.mem_of_mem_erase hmem)
      | wait _ hwaits =>
          rcases List.mem_cons.mp hmem with heq | hmem
          · cases heq
            exact ⟨_, reachable_base hreach, hwaits⟩
          · exact ih hmem
      | wake _ => exact ih (List.mem_of_mem_erase hmem)

/-- At most one thread waits on each of the variables, and what ends its wait is signalled.
Then it sleeps only as long as it has to. -/
theorem asleep_waits (mine : κ → Prop)
    (hunique : ∀ s a b k, M.sys.Reachable s → mine k → M.waits s a = some k →
      M.waits s b = some k → M.thread a = M.thread b)
    (hstep : ∀ s b s' a k, M.sys.Reachable s → M.sys.step s b = some s' →
      M.thread b ≠ M.thread a → mine k → M.waits s a = some k →
      M.waits s' a = some k ∨ M.signals s b = some k)
    (h : M.system.Reachable s) {a : α} {k : κ} (hk : mine k) (hmem : (a, k) ∈ s.asleep) :
    M.waits s.base a = some k := by
  induction h generalizing a k with
  | init h =>
      rw [h.2.2] at hmem
      cases hmem
  | @step t t' x hreach _ hs ih =>
      have hbase := reachable_base hreach
      cases step_effect hs with
      | enter _ _ => exact ih hk hmem
      | @run b base hin hb hnone =>
          exact (hstep _ b _ a k hbase hb (thread_ne hreach hin hmem) hk
            (ih hk hmem)).resolve_right (hnone _ hmem)
      | @signal b c l base hin hb hsignal hc =>
          have hold := List.mem_of_mem_erase hmem
          refine (hstep _ b _ a k hbase hb (thread_ne hreach hin hold) hk
            (ih hk hold)).resolve_right fun hl => ?_
          -- the only one asleep there has just been woken
          rw [hsignal] at hl
          cases hl
          have heq := calls_unique hreach (mem_calls_of_asleep hold) (mem_calls_of_asleep hc)
            (hunique _ _ _ _ hbase hk (ih hk hold) (ih hk hc))
          subst heq
          exact (asleep_nodup hreach).not_mem_erase hmem
      | wait _ hwaits =>
          rcases List.mem_cons.mp hmem with heq | hmem
          · cases heq
            exact hwaits
          · exact ih hk hmem
      | wake _ => exact ih hk (List.mem_of_mem_erase hmem)

omit [DecidableEq κ] in
/-- When one of the calls that are awake is over, there is one less of its kind. -/
theorem countP_erase {a : α} (hin : a ∈ s.inside) (contends : α → Bool) :
    s.inside.countP contends
      = (s.inside.erase a).countP contends + if contends a then 1 else 0 := by
  rw [(List.perm_cons_erase hin).countP_eq, List.countP_cons]

/-- Those who compete on one variable are as many awake as there is to be had, or none of them
sleeps. -/
theorem awake_of_asleep {k : κ} (avail : σ → ℕ) (contends : α → Bool)
    (hwait : ∀ s a l, M.sys.Reachable s → M.waits s a = some l → (contends a ↔ l = k))
    (hnone : ∀ s a, M.sys.Reachable s → M.waits s a = some k → avail s = 0)
    (hstep : ∀ s b s', M.sys.Reachable s → M.sys.step s b = some s' → avail s' = 0 ∨
      avail s' + (if contends b then 1 else 0)
        ≤ avail s + (if M.signals s b = some k then 1 else 0))
    (h : M.system.Reachable s) {a : α} (hmem : (a, k) ∈ s.asleep) :
    avail s.base ≤ s.inside.countP contends := by
  suffices hinv : (∀ x ∈ s.asleep, contends x.1 ↔ x.2 = k) ∧
      ∀ x ∈ s.asleep, x.2 = k → avail s.base ≤ s.inside.countP contends from
    hinv.2 _ hmem rfl
  clear hmem
  induction h with
  | init h =>
      rw [h.2.2]
      exact ⟨fun x hx => (List.not_mem_nil hx).elim, fun x hx => (List.not_mem_nil hx).elim⟩
  | @step t t' x hreach _ hs ih =>
      obtain ⟨hcontends, hcount⟩ := ih
      have hbase := reachable_base hreach
      cases step_effect hs with
      | @enter b _ _ =>
          refine ⟨hcontends, fun y hy hyk => ?_⟩
          rw [List.countP_cons]
          exact (hcount y hy hyk).trans (Nat.le_add_right _ _)
      | @run b base hin hb hsignal =>
          refine ⟨hcontends, fun y hy hyk => ?_⟩
          have hle := hcount y hy hyk
          have herase := countP_erase hin contends
          have hunit := hstep _ _ _ hbase hb
          have hsig : M.signals t.base b ≠ some k := hyk ▸ hsignal y hy
          rw [if_neg hsig] at hunit
          show avail base ≤ (t.inside.erase b).countP contends
          omega
      | @signal b c l base hin hb hsignal hc =>
          refine ⟨fun y hy => hcontends y (List.mem_of_mem_erase hy), fun y hy hyk => ?_⟩
          have hle := hcount y (List.mem_of_mem_erase hy) hyk
          have herase := countP_erase hin contends
          have hunit := hstep _ _ _ hbase hb
          show avail base ≤ (c :: t.inside.erase b).countP contends
          rw [List.countP_cons]
          by_cases hl : l = k
          · -- one unit more, and one thread more awake
            rw [if_pos (hsignal.trans (congrArg some hl))] at hunit
            rw [if_pos ((hcontends _ hc).mpr hl)]
            omega
          · have hsig : M.signals t.base b ≠ some k := fun heq =>
              hl (Option.some.inj (hsignal.symm.trans heq))
            rw [if_neg hsig] at hunit
            omega
      | @wait b l hin hwaits =>
          refine ⟨fun y hy => ?_, fun y hy hyk => ?_⟩
          · rcases List.mem_cons.mp hy with rfl | hy
            · exact hwait _ _ _ hbase hwaits
            · exact hcontends y hy
          · by_cases hl : l = k
            · rw [hnone t.base b hbase (hl ▸ hwaits)]
              exact Nat.zero_le _
            · have hold : y ∈ t.asleep := (List.mem_cons.mp hy).resolve_left fun heq => by
                rw [heq] at hyk
                exact hl hyk
              have herase := countP_erase hin contends
              rw [if_neg (mt (hwait _ _ _ hbase hwaits).mp hl)] at herase
              show avail t.base ≤ (t.inside.erase b).countP contends
              exact (hcount y hold hyk).trans herase.le
      | @wake b l hb =>
          refine ⟨fun y hy => hcontends y (List.mem_of_mem_erase hy), fun y hy hyk => ?_⟩
          rw [List.countP_cons]
          exact (hcount y (List.mem_of_mem_erase hy) hyk).trans (Nat.le_add_right _ _)

/-! ### A game against the signals -/

/-- Steps of the calls that are `mine` lead to the goal, whomever the signals wake. -/
inductive Brings (M : Monitor σ α κ θ) (mine : α → Prop) (goal : State σ α κ → Prop) :
    State σ α κ → Prop
  | here {s : State σ α κ} (h : goal s) : Brings M mine goal s
  | enter {s s' : State σ α κ} {a : α} (ha : mine a) (hs : M.system.step s (.enter a) = some s')
      (h : Brings M mine goal s') : Brings M mine goal s
  | run {s : State σ α κ} {a : α} (ha : mine a)
      (henabled : ∃ woken s', M.system.step s (.run a woken) = some s')
      (h : ∀ woken s', M.system.step s (.run a woken) = some s' → Brings M mine goal s') :
      Brings M mine goal s

/-- What becomes of the calls when a section is passed. -/
theorem run_effect {a : α} {woken : Option α} (h : M.system.step s (.run a woken) = some s') :
    M.sys.step s.base a = some s'.base ∧ s.calls.Perm (a :: s'.calls) := by
  cases step_effect h with
  | run hin hstep _ => exact ⟨hstep, calls_run_perm hin⟩
  | signal hin hstep _ hmem =>
      refine ⟨hstep, ((List.perm_cons_erase hin).append_right _).trans (.cons _ ?_)⟩
      exact calls_wake_perm hmem _

/-- The rule: as long as the goal is not reached, one of the calls that is awake, or a thread
that is in no call, can pass its section, and that lowers the rank. -/
theorem Brings.of_rank {mine : α → Prop} {goal : State σ α κ → Prop} (rank : State σ α κ → ℕ)
    (hnext : ∀ s, M.system.Reachable s → goal s ∨ ∃ a base, mine a ∧
      M.sys.step s.base a = some base ∧
      ((a ∈ s.inside ∧ ∀ t, t.base = base → s.calls.Perm (a :: t.calls) → rank t < rank s) ∨
        (∀ b ∈ s.calls, M.thread b ≠ M.thread a) ∧
          ∀ t, t.base = base → s.calls.Perm t.calls → rank t < rank s))
    (h : M.system.Reachable s) : Brings M mine goal s := by
  induction hr : rank s using Nat.strong_induction_on generalizing s with
  | h n ih =>
      subst hr
      rcases hnext s h with hgoal | ⟨a, base, ha, hstep, ⟨hin, hlower⟩ | ⟨hidle, hlower⟩⟩
      · exact .here hgoal
      · refine .run ha (exists_run hin hstep) fun woken t ht => ?_
        obtain ⟨hbase, hperm⟩ := run_effect ht
        rw [hstep] at hbase
        exact ih _ (hlower t (Option.some.inj hbase).symm hperm) (h.step trivial ht) rfl
      · have henter := enter_run (M := M) (.inl (by rw [hstep]; rfl)) hidle
        refine .enter ha henter (.run ha (exists_run List.mem_cons_self hstep) fun woken t ht => ?_)
        obtain ⟨hbase, hperm⟩ := run_effect ht
        change M.sys.step s.base a = some t.base at hbase
        rw [hstep] at hbase
        exact ih _ (hlower t (Option.some.inj hbase).symm hperm.cons_inv)
          ((h.step trivial henter).step trivial ht) rfl

end Monitor
