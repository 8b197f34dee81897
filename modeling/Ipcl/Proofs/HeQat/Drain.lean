/-
The runtime can always be emptied.

Whatever state the calls have led to, and whoever is asleep, the scheduler, the processing
thread and the direct submissions that have begun can hand every request submitted to the
device, without a further call from outside and without a wake-up that nobody has signalled.
They can do so whichever of the sleepers their signals wake.  The device has to answer on the
way: with too much in it the processing thread reads nothing.

The rank counts for each request how far it is from the device, twice, and once what the device
has not answered.  A direct submission in progress counts for more than the request it will
bring.  As long as something is left, a thread that is awake, or one that is in no call, lowers
the rank: that no wake-up is lost is what finds it.
-/
import Ipcl.Proofs.HeQat.Offers

namespace Ipcl.HeQat.Wakeups

open Sessions (Sound Traced)

variable {τ ι : Type} [DecidableEq τ] [DecidableEq ι]

/-! ### How far it is to the device -/

/-- How far the scheduler is from its next extraction. -/
def SchedulerAt.toGo : SchedulerAt → ℕ
  | .submit => 2
  | .select => 1
  | .extract _ => 0

/-- How far the requests on their way are from the device. -/
def Numbers.rank (n : Numbers) : ℕ :=
  6 * ∑ i ∈ Finset.range bufferCount, n.lanes i + 3 * n.hand + 2 * n.trunk
    + (n.listed - n.processed) + SchedulerAt.toGo n.scheduler

omit [DecidableEq τ] [DecidableEq ι] in
/-- The threads of the runtime take them nearer, unless the scheduler looks into empty buffers. -/
theorem Passes.rank_lt {n n' : Numbers} {a : Call τ ι} (hpass : Passes n a n')
    (hmine : OfRuntime a)
    (hselect : a = .session (.background .select) → ∃ i < bufferCount, n.lanes i ≠ 0) :
    n'.rank < n.rank + if isDirect a then 3 else 0 := by
  cases hpass with
  | @select found hat _ _ hnone =>
      cases found with
      | none =>
          obtain ⟨i, hi, hne⟩ := hselect rfl
          exact absurd (hnone rfl i hi) hne
      | some i =>
          simp only [Numbers.rank, hat, SchedulerAt.toGo, Runtime.afterSelect]
          omega
  | @extract i hat hi hne =>
      have hsum := Finset.sum_update_of_mem (Finset.mem_range.mpr hi) n.lanes 0
      have hsplit := Finset.add_sum_erase _ n.lanes (Finset.mem_range.mpr hi)
      rw [Finset.sdiff_singleton_eq_erase] at hsum
      simp only [Numbers.rank, hat, SchedulerAt.toGo, hsum]
      omega
  | submitList hat hne _ =>
      simp only [Numbers.rank, hat, SchedulerAt.toGo]
      omega
  | @read m hmax hlisted hne =>
      rw [Throttle.toNat_restartThreshold] at hmax
      simp only [Numbers.rank, hlisted]
      omega
  | last hlast =>
      simp only [Numbers.rank]
      omega
  | dispatch hmore =>
      simp only [Numbers.rank]
      omega
  | leave hat _ =>
      simp only [Numbers.rank, hat, SchedulerAt.toGo]
      omega
  | direct _ =>
      simp only [Numbers.rank, isDirect, if_true]
      omega
  | _ => exact hmine.elim

omit [DecidableEq τ] [DecidableEq ι] in
theorem Passes.callback_eq {n n' : Numbers} {r : Request ι} {out : List ℕ}
    (hpass : Passes n (.session (.callback r out) : Call τ ι) n') : n' = n := by
  cases hpass
  rfl

/-- The calls of the runtime and of the device. -/
def Helps (a : Call τ ι) : Prop :=
  match a.thread with
  | .api _ => False
  | _ => True

/-- What is still to be done, with what the device has not answered. -/
def toDo (status : Request ι → CpaStatus) (s : Sessions.State τ ι) : ℕ :=
  2 * (numbers s.runtime).rank + pending status s

variable {status : Request ι → CpaStatus}

theorem toDo_lt {s s' : Sessions.State τ ι} {a : Call τ ι} (h : Kept s) (hs : step s a = .ok s')
    (hpaced : Paced status s a) (hmine : Helps a)
    (hselect : a = .session (.background .select) →
      ∃ i < bufferCount, (numbers s.runtime).lanes i ≠ 0) :
    toDo status s' < toDo status s + if isDirect a then 6 else 0 := by
  have hpass := passes h.sound hs
  rcases pending_cases h hs hpaced with ⟨⟨r, hr⟩, hlt⟩ | ⟨hdevice, -, hle⟩
  · obtain ⟨out, rfl⟩ := of_device hr
    rw [toDo, toDo, hpass.callback_eq]
    omega
  · have hruntime : OfRuntime a := by
      cases hthread : a.thread with
      | api t => simp only [Helps, hthread] at hmine
      | device r => exact absurd hthread (hdevice r)
      | _ => simp only [OfRuntime, hthread]
    have hrank := hpass.rank_lt hruntime hselect
    have hoffer := handsOver_le_one a
    rw [toDo, toDo]
    split at hrank
    · next hd =>
        rw [if_pos hd]
        omega
    · omega

/-- The rank, with what the direct submissions in progress will bring. -/
def rank (status : Request ι → CpaStatus) (s : State τ ι) : ℕ :=
  toDo status s.base + 6 * s.calls.countP isDirect

/-- A call that takes things further, by a thread that is awake or in no call. -/
def Next (status : Request ι → CpaStatus) (s : State τ ι) : Prop :=
  ∃ a base, Helps a ∧ (pacedMonitor status).sys.step s.base a = some base ∧
    ((a ∈ s.inside ∧ ∀ t : State τ ι, t.base = base → s.calls.Perm (a :: t.calls) →
        rank status t < rank status s) ∨
      (∀ b ∈ s.calls, b.thread ≠ a.thread) ∧ ∀ t : State τ ι, t.base = base →
        s.calls.Perm t.calls → rank status t < rank status s)

section
variable {s : State τ ι} {a : Call τ ι}

theorem next_inside (h : (pacedMonitor status).system.Reachable s) (hin : a ∈ s.inside)
    (hmine : Helps a) (hs : ∃ base, (monitor τ ι).sys.step s.base a = some base)
    (hselect : a = .session (.background .select) →
      ∃ i < bufferCount, (numbers s.base.runtime).lanes i ≠ 0) : Next status s := by
  have hkept := kept (Monitor.reachable_base (Monitor.reachable_of_restrict h))
  have hpaced := paced h a (Monitor.mem_calls_of_inside hin)
  obtain ⟨base, hs⟩ := paced_run hpaced hs
  refine ⟨a, base, hmine, hs, Or.inl ⟨hin, fun t ht hperm => ?_⟩⟩
  obtain ⟨-, hs⟩ := TransitionSystem.restrict_step.mp hs
  have hlt := toDo_lt hkept (step_ok hs) hpaced hmine hselect
  have hcount := hperm.countP_eq isDirect
  rw [List.countP_cons] at hcount
  rw [rank, rank, ht, hcount]
  split at hlt
  · next hd =>
      rw [if_pos hd]
      omega
  · omega

theorem next_idle (h : Kept s.base) (hidle : ∀ b ∈ s.calls, b.thread ≠ a.thread)
    (hmine : Helps a) (hdirect : isDirect a = false) (hpaced : Paced status s.base a)
    (hs : ∃ base, (monitor τ ι).sys.step s.base a = some base)
    (hselect : a = .session (.background .select) →
      ∃ i < bufferCount, (numbers s.base.runtime).lanes i ≠ 0) : Next status s := by
  obtain ⟨base, hs⟩ := paced_run hpaced hs
  refine ⟨a, base, hmine, hs, Or.inr ⟨hidle, fun t ht hperm => ?_⟩⟩
  obtain ⟨-, hs⟩ := TransitionSystem.restrict_step.mp hs
  have hlt := toDo_lt h (step_ok hs) hpaced hmine hselect
  rw [hdirect] at hlt
  rw [rank, rank, ht, hperm.countP_eq]
  simp only [Bool.false_eq_true, if_false, Nat.add_zero] at hlt
  omega

omit [DecidableEq τ] [DecidableEq ι] in
theorem mem_calls {s : State τ ι} {a : Call τ ι} (h : a ∈ s.calls) :
    a ∈ s.inside ∨ ∃ k, (a, k) ∈ s.asleep := by
  rcases List.mem_append.mp h with hin | hasleep
  · exact Or.inl hin
  · obtain ⟨x, hx, rfl⟩ := List.mem_map.mp hasleep
    exact Or.inr ⟨x.2, hx⟩

/-- A thread whose calls can all pass takes things further, if it is not asleep. -/
theorem next_of_thread (h : (pacedMonitor status).system.Reachable s) (hmine : Helps a)
    (hdirect : isDirect a = false) (hpaced : Paced status s.base a)
    (ha : ∃ base, (monitor τ ι).sys.step s.base a = some base)
    (hpass : ∀ b, b.thread = a.thread → Placed s.base b →
      ∃ base, (monitor τ ι).sys.step s.base b = some base)
    (hselect : a.thread = .scheduler → s.base.runtime.scheduler = .select →
      ∃ i < bufferCount, (numbers s.base.runtime).lanes i ≠ 0)
    (hawake : ∀ b k, b.thread = a.thread → (b, k) ∈ s.asleep → Next status s) :
    Next status s := by
  have hbase := Monitor.reachable_of_restrict h
  have hkept := kept (Monitor.reachable_base hbase)
  have hsel : ∀ b : Call τ ι, b.thread = a.thread → Placed s.base b →
      b = .session (.background .select) →
        ∃ i < bufferCount, (numbers s.base.runtime).lanes i ≠ 0 := by
    rintro _ hb hp rfl
    exact hselect hb.symm hp
  by_cases hidle : ∀ b ∈ s.calls, b.thread ≠ a.thread
  · obtain ⟨base, hs⟩ := ha
    have hplaced := placed_of_at hkept (Or.inl (by rw [hs]; rfl))
    exact next_idle hkept hidle hmine hdirect hpaced ⟨base, hs⟩ (hsel a rfl hplaced)
  · push Not at hidle
    obtain ⟨b, hb, hthread⟩ := hidle
    have hplaced := placed hbase b hb
    rcases mem_calls hb with hin | ⟨k, hasleep⟩
    · have hmine' : Helps b := by
        rw [Helps, hthread]
        exact hmine
      exact next_inside h hin hmine' (hpass b hthread hplaced) (hsel b hthread hplaced)
    · exact hawake b k hthread hasleep

end

/-! ### Who is asleep -/

omit [DecidableEq τ] [DecidableEq ι] in
theorem of_processing {b : Call τ ι} (hb : b.thread = .processing) :
    b = .session (.background .dispatch) ∨ ∃ m, b = .session (.background (.read m)) := by
  cases b with
  | session b =>
      cases b with
      | background b =>
          cases b with
          | dispatch => exact Or.inl rfl
          | read m => exact Or.inr ⟨m, rfl⟩
          | _ => cases hb
      | _ => cases hb
  | _ => cases hb

omit [DecidableEq τ] [DecidableEq ι] in
theorem of_scheduler {b : Call τ ι} (hb : b.thread = .scheduler) :
    b = .session (.background .select) ∨ b = .session (.background .extract) ∨
      b = .session (.background .submitList) ∨ b = .leave := by
  cases b with
  | session b =>
      cases b with
      | background b =>
          cases b with
          | select => exact Or.inl rfl
          | extract => exact Or.inr (Or.inl rfl)
          | submitList => exact Or.inr (Or.inr (Or.inl rfl))
          | _ => cases hb
      | _ => cases hb
  | leave => exact Or.inr (Or.inr (Or.inr rfl))
  | direct ref opData => cases hb

section
variable {s : State τ ι} (h : (monitor τ ι).system.Reachable s)
include h

/-- What a sleeper waits for, at the time it went to sleep. -/
theorem exists_waiting {b : Call τ ι} {k : CondVar ι} (hasleep : (b, k) ∈ s.asleep) :
    ∃ t, Waiting t b k := by
  obtain ⟨t, ht, hw⟩ := Monitor.exists_waits h hasleep
  exact ⟨t, (waits_iff (kept ht)).mp hw⟩

/-- One that sleeps alone on its variable still waits for it. -/
theorem waiting_of_asleep {b : Call τ ι} {k : CondVar ι} (hasleep : (b, k) ∈ s.asleep)
    (hk : Single k) : Waiting s.base b k :=
  (waits_iff (kept (Monitor.reachable_base h))).mp
    ((sleepers_awaited h).single b k hasleep hk)

theorem processing_asleep {b : Call τ ι} {k : CondVar ι} (hasleep : (b, k) ∈ s.asleep)
    (hb : b.thread = .processing) : s.base.runtime.processingList.count = 0 ∧
      s.base.runtime.heQatBuffer.count = 0 := by
  obtain ⟨t, ht⟩ := exists_waiting h hasleep
  rcases of_processing hb with rfl | ⟨m, rfl⟩
  · cases ht
  · cases ht
    cases waiting_of_asleep h hasleep trivial with
    | read _ hlisted hzero => exact ⟨hlisted, hzero⟩

theorem scheduler_asleep {b : Call τ ι} {k : CondVar ι} (hasleep : (b, k) ∈ s.asleep)
    (hb : b.thread = .scheduler) :
    s.base.runtime.scheduler = .select ∧ s.base.runtime.held.length = 0 ∨
      (b, CondVar.anyFreeSlot none) ∈ s.asleep := by
  obtain ⟨t, ht⟩ := exists_waiting h hasleep
  rcases of_scheduler hb with rfl | rfl | rfl | rfl
  · cases ht
    cases waiting_of_asleep h hasleep trivial with
    | select hat hzero => exact Or.inl ⟨hat, hzero⟩
  · cases ht with
    | @extract i _ _ =>
        cases waiting_of_asleep h hasleep trivial with
        | extract hat hzero =>
            exact absurd hzero ((kept (Monitor.reachable_base h)).chosen i hat)
  · cases ht
    exact Or.inr hasleep
  · cases ht

end

/-! ### Who is next -/

section
variable {s : State τ ι} (h : (pacedMonitor status).system.Reachable s)
include h

/-- The processing thread hands over what it has read. -/
theorem next_dispatch (hexited : ¬ Exited status s.base)
    (hlisted : s.base.runtime.processingList.count ≠ 0) : Next status s := by
  have hbase := Monitor.reachable_of_restrict h
  have hkept := kept (Monitor.reachable_base hbase)
  refine next_of_thread h (a := .session (.background .dispatch)) trivial rfl hexited
    (dispatch_run hkept hlisted) ?_ (fun hc => by cases hc) ?_
  · intro b hb hplaced
    rcases of_processing hb with rfl | ⟨m, rfl⟩
    · exact dispatch_run hkept hlisted
    · exact absurd hplaced.1 hlisted
  · intro b k hb hasleep
    exact absurd (processing_asleep hbase hasleep hb).1 hlisted

/-- It reads what is in the ring, if the device has room for it. -/
theorem next_read (hexited : ¬ Exited status s.base)
    (hroom : Throttle.restartThreshold.toNat ≤ available status s.base)
    (hlisted : s.base.runtime.processingList.count = 0)
    (hne : s.base.runtime.heQatBuffer.count ≠ 0) : Next status s := by
  have hbase := Monitor.reachable_of_restrict h
  have hkept := kept (Monitor.reachable_base hbase)
  refine next_of_thread h (a := .session (.background (.read (available status s.base)))) trivial
    rfl ⟨hexited, le_rfl⟩ (read_run hkept hroom hlisted hne) ?_ (fun hc => by cases hc) ?_
  · intro b hb hplaced
    rcases of_processing hb with rfl | ⟨m, rfl⟩
    · exact absurd hlisted hplaced
    · exact read_run hkept hplaced.2 hlisted hne
  · intro b k hb hasleep
    exact absurd (processing_asleep hbase hasleep hb).2 hne

/-- If it has none, it answers a request first. -/
theorem next_answer {r : Request ι} (hr : r ∈ s.base.runtime.dispatched)
    (hstatus : status r = .success) (hanswer : s.base.answer r = none) : Next status s := by
  have hbase := Monitor.reachable_of_restrict h
  have hkept := kept (Monitor.reachable_base hbase)
  have hrun := callback_run hkept hr hanswer
  refine next_of_thread h (a := .session (.callback r [])) trivial rfl hstatus (hrun []) ?_
    (fun hc => by cases hc) ?_
  · intro b hb _
    obtain ⟨out, rfl⟩ := of_device hb
    exact hrun out
  · intro b k hb hasleep
    obtain ⟨out, rfl⟩ := of_device hb
    obtain ⟨t, ht⟩ := exists_waiting hbase hasleep
    cases ht

omit [DecidableEq τ] [DecidableEq ι] h in
/-- Who needs a slot is of the runtime. -/
theorem helps_of_needsSlot {a : Call τ ι} (hslot : needsSlot a) :
    Helps a ∧ a ≠ .session (.background .select) := by
  cases a with
  | leave => cases hslot
  | direct ref opData => exact ⟨trivial, fun hc => by cases hc⟩
  | session a =>
      cases a with
      | background a =>
          cases a with
          | submitList => exact ⟨trivial, fun hc => by cases hc⟩
          | _ => cases hslot
      | _ => cases hslot

/-- When somebody sleeps beside the empty ring, another one fills it. -/
theorem next_fill {a : Call τ ι} (hasleep : (a, CondVar.anyFreeSlot none) ∈ s.asleep)
    (hempty : s.base.runtime.heQatBuffer.count = 0) : Next status s := by
  obtain ⟨b, hb, hslot, hstep⟩ :=
    (sleepers_awaited (Monitor.reachable_of_restrict h)).slots a hasleep hempty
  obtain ⟨hmine, hne⟩ := helps_of_needsSlot hslot
  exact next_inside h hb hmine (Option.isSome_iff_exists.mp hstep) fun hc => absurd hc hne

/-- The scheduler puts its list into the empty ring. -/
theorem next_submitList (hempty : s.base.runtime.heQatBuffer.count = 0)
    (hhand : s.base.runtime.schedulerList.count ≠ 0) : Next status s := by
  have hbase := Monitor.reachable_of_restrict h
  have hkept := kept (Monitor.reachable_base hbase)
  obtain ⟨t, -, hR⟩ := hkept.sound.traced
  have hcount := hR.hand.count_eq
  have hsize := hR.hand.le_size
  have hat : s.base.runtime.scheduler = .submit := by
    have hok := hR.scheduler
    cases hat : s.base.runtime.scheduler with
    | submit => rfl
    | select =>
        rw [hat] at hok
        rw [hcount, hok] at hhand
        exact absurd rfl hhand
    | extract i =>
        rw [hat] at hok
        rw [hcount, hok.1] at hhand
        exact absurd rfl hhand
  have hrun := submitList_run hkept hat hhand (by omega)
  refine next_of_thread h (a := .session (.background .submitList)) trivial rfl trivial hrun ?_
    (fun _ hc => by rw [hat] at hc; cases hc) ?_
  · intro b hb hplaced
    rcases of_scheduler hb with rfl | rfl | rfl | rfl
    · exact absurd (hat.symm.trans hplaced) (by simp)
    · obtain ⟨i, hi⟩ := hplaced
      exact absurd (hat.symm.trans hi) (by simp)
    · exact hrun
    · exact absurd hplaced.2 hhand
  · intro b k hb hasleep
    rcases scheduler_asleep hbase hasleep hb with ⟨hselect, -⟩ | hslot
    · exact absurd (hat.symm.trans hselect) (by simp)
    · exact next_fill h hslot hempty

/-- The scheduler goes on to the next buffer with a request. -/
theorem next_scheduler (hempty : s.base.runtime.heQatBuffer.count = 0)
    (hhand : s.base.runtime.schedulerList.count = 0)
    (hlane : ∃ i < bufferCount, (numbers s.base.runtime).lanes i ≠ 0) : Next status s := by
  have hbase := Monitor.reachable_of_restrict h
  have hkept := kept (Monitor.reachable_base hbase)
  obtain ⟨i, hi, hne⟩ := hlane
  have hheld : s.base.runtime.held.length ≠ 0 := by
    obtain ⟨x, hx, -⟩ := List.mem_map.mp (held_of_lane hkept.sound hi hne)
    exact Nat.ne_of_gt (List.length_pos_of_mem hx)
  have hpass : ∀ b : Call τ ι, b.thread = .scheduler → Placed s.base b →
      ∃ base, (monitor τ ι).sys.step s.base b = some base := by
    intro b hb hplaced
    rcases of_scheduler hb with rfl | rfl | rfl | rfl
    · exact select_run hkept hplaced hheld
    · obtain ⟨j, hj⟩ := hplaced
      exact extract_run hkept hj
    · exact absurd hhand hplaced.2
    · exact leave_run hplaced.1 hplaced.2
  have hthread : ∀ a : Call τ ι, a.thread = .scheduler → isDirect a = false →
      Paced status s.base a → Placed s.base a → Next status s := by
    intro a ha hdirect hpaced hplaced
    have hmine : Helps a := by
      rw [Helps, ha]
      trivial
    refine next_of_thread h hmine hdirect hpaced (hpass a ha hplaced)
      (fun b hb => hpass b (hb.trans ha)) (fun _ _ => ⟨i, hi, hne⟩) ?_
    intro b k hb hasleep
    rcases scheduler_asleep hbase hasleep (hb.trans ha) with ⟨-, hzero⟩ | hslot
    · exact absurd hzero hheld
    · exact next_fill h hslot hempty
  cases hat : s.base.runtime.scheduler with
  | select => exact hthread (.session (.background .select)) rfl rfl trivial hat
  | extract j => exact hthread (.session (.background .extract)) rfl rfl trivial ⟨j, hat⟩
  | submit => exact hthread .leave rfl rfl trivial ⟨hat, hhand⟩

/-- A direct submission in progress goes into the empty ring. -/
theorem next_direct (hempty : s.base.runtime.heQatBuffer.count = 0) {a : Call τ ι}
    (hmem : a ∈ s.calls) (hdirect : isDirect a) : Next status s := by
  have hbase := Monitor.reachable_of_restrict h
  have hkept := kept (Monitor.reachable_base hbase)
  cases a with
  | session a => cases hdirect
  | leave => cases hdirect
  | direct ref opData =>
      rcases mem_calls hmem with hin | ⟨k, hasleep⟩
      · have hroom : s.base.runtime.heQatBuffer.count < bufferSize := by
          rw [hempty]
          exact Nat.zero_lt_succ 1023
        exact next_inside h hin trivial
          (direct_run hkept (placed hbase _ hmem) hroom opData) fun hc => by cases hc
      · obtain ⟨t, ht⟩ := exists_waiting hbase hasleep
        cases ht
        exact next_fill h hasleep hempty

end

/-! ### The end -/

/-- Every request submitted has been handed over, and no direct submission is in progress. -/
def Drained (s : State τ ι) : Prop :=
  (∀ r ∈ s.base.runtime.submitted, r ∈ s.base.runtime.dispatched) ∧
    ∀ a ∈ s.calls, isDirect a = false

omit [DecidableEq τ] in
/-- Requests that are in none of the queues have been handed over. -/
theorem all_dispatched {s : Runtime.State τ ι} (h : Traced s)
    (hlisted : s.processingList.count = 0) (htrunk : s.heQatBuffer.count = 0)
    (hhand : s.schedulerList.count = 0)
    (hlanes : ∀ i < bufferCount, (s.outstanding.buffer i).count = 0) :
    ∀ r ∈ s.submitted, r ∈ s.dispatched := by
  obtain ⟨t, ht, hR⟩ := h
  have hcount := hR.batch.count_eq
  -- where the scheduler is makes no difference
  have hselect : Traced { s with scheduler := .select } :=
    ⟨t, ht, { hR with scheduler := hR.hand.eq_nil hhand }⟩
  exact fun r hr => hselect.all_dispatched
    ⟨rfl, hhand, htrunk, hlisted, (by omega : s.processed = 0), hlanes⟩ hr

/-- The scheduler and the processing thread are asleep, then a session queues two requests and
one comes directly. -/
def threeRequests : List (Monitor.Action (Call ℕ ℕ)) :=
  asleepAt (.session (.background .select)) ++ asleepAt (.session (.background (.read 48)))
    ++ [.enter (.session (.acquire 1 0)),
      .run (.session (.acquire 1 0)) (some (.session (.background .select)))]
    ++ through (.session (.call 1 0 10 .all)) ++ through (.session (.call 1 0 11 .all))
    ++ [.enter (.direct 12 5)]

end Ipcl.HeQat.Wakeups
