/-
How fair the scheduler is.

`pull_outstanding_requests` goes through the outstanding buffers from the first on and takes
the first that has a request.  So a request can be kept waiting by requests for the buffers
before its own, and for as long as these keep coming: a fair run is given in which it waits
for ever.  Nothing else can do that, but for the direct submissions, which the scheduler
competes with for room in the internal ring, and a retry, which ends the processing thread.  The
device has its turns as the threads have: while it answers nothing, nothing more is read.

What is on its way is counted in two ranks.  Before the scheduler extracts the request, it is
what lies in the buffers before its own and in the queues behind them; one buffer behind its own
may have been chosen before, and adds at most what a buffer can hold.  After that it is the
place of the request among those that have left the buffers, counted once for each queue that
it has still to pass.  Both count twice, and once what the device has not answered.
-/
import Ipcl.Proofs.HeQat.Drain
import Ipcl.Proofs.HeQat.Failures

namespace Ipcl.HeQat.Wakeups

open Sessions (Sound Traced)

variable {τ ι : Type}

/-! ### Whose turn it is -/

/-- The threads that take requests to the device, and the device. -/
inductive Party where
  | scheduler
  | processing
  | device
  deriving DecidableEq

def Party.acts : Party → Call τ ι → Prop
  | .scheduler, a => a.thread = .scheduler
  | .processing, a => a.thread = .processing
  | .device, a => ∃ r, a.thread = .device r

variable {status : Request ι → CpaStatus}

/-- While the processing thread has something to do, it is the one that helps, and when there is
no room for what it has to read, it is the device. -/
def helpful (status : Request ι → CpaStatus) (s : Sessions.State τ ι) : Party :=
  if (numbers s.runtime).listed ≠ 0 then .processing
  else if (numbers s.runtime).trunk = 0 then .scheduler
  else if Throttle.restartThreshold.toNat ≤ available status s then .processing
  else .device

theorem helpful_eq {s s' : Sessions.State τ ι}
    (hlisted : (numbers s'.runtime).listed = (numbers s.runtime).listed)
    (htrunk : (numbers s.runtime).listed = 0 →
      ((numbers s'.runtime).trunk = 0 ↔ (numbers s.runtime).trunk = 0))
    (hpending : pending status s' = pending status s) : helpful status s' = helpful status s := by
  rw [helpful, helpful, available, available, hlisted, hpending]
  by_cases hzero : (numbers s.runtime).listed = 0
  · simp only [hzero, htrunk hzero]
  · rw [if_pos hzero, if_pos hzero]

/-- Which calls are of another party. -/
theorem not_helpful {s : Sessions.State τ ι} {a : Call τ ι} (hprocessing : a.thread ≠ .processing)
    (hdevice : ∀ r, a.thread ≠ .device r)
    (hscheduler : (numbers s.runtime).listed = 0 → (numbers s.runtime).trunk = 0 →
      a.thread ≠ .scheduler) : ¬ (helpful status s).acts a := by
  rw [helpful]
  split_ifs with hlisted htrunk hroom
  · exact hprocessing
  · exact hscheduler (not_not.mp hlisted) htrunk
  · exact hprocessing
  · exact not_exists.mpr hdevice

variable [DecidableEq τ] [DecidableEq ι]

section
variable {s s' : Sessions.State τ ι} {a : Call τ ι}
omit [DecidableEq τ] in
theorem ahead_length (h : Kept s) : s.runtime.ahead.length = s.runtime.dispatched.length
    + ((numbers s.runtime).listed - (numbers s.runtime).processed) + (numbers s.runtime).trunk
    + (numbers s.runtime).hand := by
  obtain ⟨t, -, hR⟩ := h.sound.traced
  have hbatch := hR.batch.count_eq
  have htrunk := hR.trunk.count_eq
  have hhand := hR.hand.count_eq
  rw [hR.ahead_eq, Pipeline.State.flow]
  simp only [List.length_append, numbers, hR.delivered]
  omega

omit [DecidableEq τ] in
/-- A request that has not left its buffer lies in it. -/
theorem lane_ne_zero (h : Kept s) {q : Request ι} {i : ℕ} (hvia : q.via = some i)
    (hq : q ∈ s.runtime.submitted) (hnot : q ∉ s.runtime.ahead) :
    i < bufferCount ∧ (numbers s.runtime).lanes i ≠ 0 := by
  obtain ⟨t, ht, hR⟩ := h.sound.traced
  have hord := Pipeline.State.Ordered.of_reachable ht
  have hmem : q ∈ Pipeline.ofLane Runtime.lane (some i) t.submitted :=
    List.mem_filter.mpr ⟨hR.submitted ▸ hq, by simp [Runtime.lane, hvia]⟩
  rw [hord.order] at hmem
  have hlane : q ∈ t.lanes i := (List.mem_append.mp hmem).resolve_left fun hc =>
    hnot (hR.ahead_eq ▸ (List.mem_filter.mp hc).1)
  have hlt : i < bufferCount := by
    by_contra hge
    rw [hR.no_lane i (Nat.le_of_not_lt hge)] at hlane
    cases hlane
  refine ⟨hlt, fun hc => ?_⟩
  have hcount := (hR.lanes i hlt).count_eq
  have hpos := List.length_pos_of_mem hlane
  simp only [numbers] at hc
  omega

/-- What lowers a rank of the requests on their way, lowers it with what is pending; so does an
answer.  The processing thread always lowers it. -/
theorem rank_cases (h : Kept s) (hs : step s a = .ok s') (hpaced : Paced status s a) {x x' : ℕ}
    (hx : x' < x ∨ x' = x ∧ a.thread ≠ .processing) :
    2 * x' + pending status s' < 2 * x + pending status s ∨
      x' = x ∧ pending status s' = pending status s ∧ ∀ r, a.thread ≠ .device r := by
  rcases pending_cases h hs hpaced with ⟨-, hlt⟩ | ⟨hdevice, hle, hge⟩
  · left
    omega
  rcases hx with hlt | ⟨heq, hne⟩
  · left
    have hoffer := handsOver_le_one a
    omega
  · right
    rw [handsOver_eq_zero hne, Nat.add_zero] at hge
    exact ⟨heq, le_antisymm hge hle, hdevice⟩

end

/-! ### Before the request is extracted -/

/-- How far the scheduler is from an extraction that matters for buffer `i`. -/
def toExtract (i : ℕ) : SchedulerAt → ℕ
  | .submit => 2
  | .select => 1
  | .extract j => if i < j then 3 * bufferSize + 3 else 0

/-- What lies before the requests of buffer `i`. -/
def Numbers.before (n : Numbers) (i : ℕ) : ℕ :=
  6 * ∑ j ∈ Finset.range i, n.lanes j + 3 * n.hand + 2 * n.trunk + (n.listed - n.processed)
    + toExtract i n.scheduler

/-- The calls that can keep the requests of buffer `i` waiting. -/
def Overtakes (i : ℕ) : Call τ ι → Prop
  | .session (.call _ j _ a) => j < i ∧ (packRequest a).isOk
  | .direct _ _ => True
  | _ => False

omit [DecidableEq τ] [DecidableEq ι] in
/-- Every step of the scheduler and of the processing thread takes something out of the way, until
the scheduler extracts from buffer `i`. -/
theorem Passes.before {n n' : Numbers} {a : Call τ ι} {i : ℕ} (hpass : Passes n a n')
    (hnot : ¬ Overtakes i a) (hcap : ∀ j, n.scheduler = .extract j → n.lanes j ≤ bufferSize)
    (hi : i < bufferCount) (hne : n.lanes i ≠ 0) :
    a = .session (.background .extract) ∧ n.scheduler = .extract i ∨
      n'.before i < n.before i ∨
      n'.before i = n.before i ∧ n'.listed = n.listed ∧ n'.trunk = n.trunk ∧
        a.thread ≠ .scheduler ∧ a.thread ≠ .processing := by
  cases hpass with
  | @call t j ref b ha _ =>
      refine Or.inr (Or.inr ⟨?_, rfl, rfl, by simp [Call.thread], by simp [Call.thread]⟩)
      have hij : i ≤ j := Nat.le_of_not_lt fun hc => hnot ⟨hc, ha⟩
      have hsum : ∑ k ∈ Finset.range i, Function.update n.lanes j (n.lanes j + 1) k
          = ∑ k ∈ Finset.range i, n.lanes k := by
        refine Finset.sum_congr rfl fun k hk => Function.update_of_ne ?_ _ _
        have hki := Finset.mem_range.mp hk
        omega
      simp only [Numbers.before, hsum]
  | @select found hat _ hsome hnone =>
      right
      left
      cases found with
      | none => exact absurd (hnone rfl i hi) hne
      | some j =>
          have hji : ¬ i < j := fun hc => hne ((hsome j rfl).2.2 i hc)
          simp only [Numbers.before, hat, toExtract, Runtime.afterSelect, if_neg hji]
          omega
  | @extract j hat hj hnej =>
      rcases Nat.lt_trichotomy j i with hlt | rfl | hgt
      · right
        left
        have hmem := Finset.mem_range.mpr hlt
        have hsum := Finset.sum_update_of_mem hmem n.lanes 0
        have hsplit := Finset.add_sum_erase _ n.lanes hmem
        rw [Finset.sdiff_singleton_eq_erase] at hsum
        simp only [Numbers.before, hat, toExtract, hsum]
        omega
      · exact Or.inl ⟨rfl, hat⟩
      · -- chosen before; from now on it is the turn of the others
        right
        left
        have hsum : ∑ k ∈ Finset.range i, Function.update n.lanes j 0 k
            = ∑ k ∈ Finset.range i, n.lanes k := by
          refine Finset.sum_congr rfl fun k hk => Function.update_of_ne ?_ _ _
          have hki := Finset.mem_range.mp hk
          omega
        have hle := hcap j hat
        simp only [Numbers.before, hat, toExtract, hsum, if_pos hgt]
        omega
  | submitList hat hneh _ =>
      right
      left
      simp only [Numbers.before, hat, toExtract]
      omega
  | @read m hmax hlisted hnet =>
      right
      left
      rw [Throttle.toNat_restartThreshold] at hmax
      simp only [Numbers.before, hlisted]
      omega
  | last hlast =>
      right
      left
      simp only [Numbers.before]
      omega
  | dispatch hmore =>
      right
      left
      simp only [Numbers.before]
      omega
  | leave hat _ =>
      right
      left
      simp only [Numbers.before, hat, toExtract]
      omega
  | direct _ => exact absurd trivial hnot
  | _ => exact Or.inr (Or.inr ⟨rfl, rfl, rfl, by simp [Call.thread], by simp [Call.thread]⟩)

/-! ### After it has been extracted -/

/-- How far the place `p` is from the device, when `d` requests have been handed over. -/
def Numbers.behind (n : Numbers) (p d : ℕ) : ℕ :=
  (p + 1 - d) + (p + 1 - (d + (n.listed - n.processed)))
    + (p + 1 - (d + (n.listed - n.processed) + n.trunk))

omit [DecidableEq τ] [DecidableEq ι] in
/-- The one that helps takes a request nearer that has left its buffer. -/
theorem Passes.behind {n n' : Numbers} {a : Call τ ι} {p d : ℕ} (hpass : Passes n a n')
    (hdirect : isDirect a = false) (hhand : n.scheduler ≠ .submit → n.hand = 0) (hd : d ≤ p)
    (hp : p < d + (n.listed - n.processed) + n.trunk + n.hand) :
    n'.behind p (d + handsOver a) < n.behind p d ∨
      n'.behind p (d + handsOver a) = n.behind p d ∧
        (n.listed = 0 → (n'.trunk = 0 ↔ n.trunk = 0) ∧ (n.trunk = 0 → a.thread ≠ .scheduler)) ∧
        a.thread ≠ .processing := by
  cases hpass with
  | submitList hat hne _ =>
      simp only [Numbers.behind, handsOver, Call.thread]
      by_cases hzero : n.listed + n.trunk = 0
      · left
        omega
      · rcases Nat.lt_or_ge p (d + (n.listed - n.processed) + n.trunk) with hlt | hge
        · right
          refine ⟨by omega, fun hlisted => ⟨by omega, fun hc => ?_⟩, by simp⟩
          omega
        · left
          omega
  | @read m hmax hlisted hnet =>
      left
      rw [Throttle.toNat_restartThreshold] at hmax
      simp only [Numbers.behind, handsOver, hlisted]
      omega
  | last hlast =>
      left
      simp only [Numbers.behind, handsOver]
      omega
  | dispatch hmore =>
      left
      simp only [Numbers.behind, handsOver]
      omega
  | direct _ => cases hdirect
  | select hat _ _ _ =>
      have hzero := hhand (by rw [hat]; simp)
      refine Or.inr ⟨rfl, fun hlisted => ⟨Iff.rfl, fun hc => ?_⟩, by simp [Call.thread]⟩
      omega
  | extract hat _ _ =>
      have hzero := hhand (by rw [hat]; simp)
      refine Or.inr ⟨rfl, fun hlisted => ⟨Iff.rfl, fun hc => ?_⟩, by simp [Call.thread]⟩
      omega
  | leave hat hzero =>
      refine Or.inr ⟨rfl, fun hlisted => ⟨Iff.rfl, fun hc => ?_⟩, by simp [Call.thread]⟩
      omega
  | _ =>
      exact Or.inr ⟨rfl, fun _ => ⟨Iff.rfl, fun _ => by simp [Call.thread]⟩, by simp [Call.thread]⟩

/-! ### The helpful party -/

section
variable {s s' : Sessions.State τ ι} {a : Call τ ι}

omit [DecidableEq τ] in
theorem hand_zero (h : Kept s) (hat : s.runtime.scheduler ≠ .submit) :
    s.runtime.schedulerList.count = 0 := by
  obtain ⟨t, -, hR⟩ := h.sound.traced
  have hnil := hand_nil h hat
  rw [hR.hand.remaining.from_eq] at hnil
  rw [hR.hand.count_eq, hnil, List.length_nil]

omit [DecidableEq τ] in
theorem lane_le (h : Kept s) {i : ℕ} (hat : s.runtime.scheduler = .extract i) :
    (numbers s.runtime).lanes i ≤ bufferSize := by
  obtain ⟨t, -, hR⟩ := h.sound.traced
  have hok := hR.scheduler
  rw [hat] at hok
  have hlane := hR.lanes i hok.2
  exact hlane.count_eq.trans_le hlane.length_le

/-- It can do something as long as there is a request on its way. -/
theorem helpful_enabled (h : Kept s) (hexited : ¬ Exited status s)
    (hwork : (∃ i < bufferCount, (numbers s.runtime).lanes i ≠ 0) ∨
      (numbers s.runtime).hand ≠ 0 ∨ (numbers s.runtime).listed + (numbers s.runtime).trunk ≠ 0) :
    ∃ a, (helpful status s).acts a ∧ ((pacedSystem status).step s a).isSome := by
  suffices hrun : ∃ a, (helpful status s).acts a ∧ Paced status s a ∧
      ∃ s', (monitor τ ι).sys.step s a = some s' by
    obtain ⟨a, ha, hpaced, hs⟩ := hrun
    exact ⟨a, ha, Option.isSome_iff_exists.mpr (paced_run hpaced hs)⟩
  by_cases hlisted : s.runtime.processingList.count = 0
  swap
  · rw [helpful, if_pos (show (numbers s.runtime).listed ≠ 0 from hlisted)]
    exact ⟨.session (.background .dispatch), rfl, hexited, dispatch_run h hlisted⟩
  rw [helpful, if_neg (not_not.mpr (show (numbers s.runtime).listed = 0 from hlisted))]
  by_cases htrunk : s.runtime.heQatBuffer.count = 0
  · -- the queues behind the scheduler are empty
    rw [if_pos (show (numbers s.runtime).trunk = 0 from htrunk)]
    have hzero : (numbers s.runtime).listed + (numbers s.runtime).trunk = 0 := by
      simp only [numbers]
      omega
    have hwork := hwork.imp_right fun hc => hc.resolve_right fun hne => hne hzero
    have hlane : s.runtime.scheduler ≠ .submit → s.runtime.held.length ≠ 0 := by
      intro hat
      obtain ⟨i, hi, hne⟩ := hwork.resolve_right fun hc => hc (hand_zero h hat)
      obtain ⟨x, hx, -⟩ := List.mem_map.mp (held_of_lane h.sound hi hne)
      exact Nat.ne_of_gt (List.length_pos_of_mem hx)
    cases hat : s.runtime.scheduler with
    | select =>
        exact ⟨.session (.background .select), rfl, trivial,
          select_run h hat (hlane (by rw [hat]; simp))⟩
    | extract i => exact ⟨.session (.background .extract), rfl, trivial, extract_run h hat⟩
    | submit =>
        obtain ⟨t, -, hR⟩ := h.sound.traced
        have hcount := hR.hand.count_eq
        have hsize := hR.hand.le_size
        by_cases hhand : s.runtime.schedulerList.count = 0
        · exact ⟨.leave, rfl, trivial, leave_run hat hhand⟩
        · exact ⟨.session (.background .submitList), rfl, trivial,
            submitList_run h hat hhand (by omega)⟩
  · rw [if_neg (show (numbers s.runtime).trunk ≠ 0 from htrunk)]
    by_cases hroom : Throttle.restartThreshold.toNat ≤ available status s
    · rw [if_pos hroom]
      exact ⟨.session (.background (.read (available status s))), rfl, ⟨hexited, le_rfl⟩,
        read_run h hroom hlisted htrunk⟩
    · rw [if_neg hroom]
      obtain ⟨r, hr, hok, hnone⟩ := (available_or_pending status s).resolve_left hroom
      exact ⟨.session (.callback r []), ⟨r, rfl⟩, hok, callback_run h hr hnone []⟩

/-- What is submitted stays so. -/
theorem submitted_step (h : Kept s) (hs : step s a = .ok s') {q : Request ι}
    (hq : q ∈ s.runtime.submitted) : q ∈ s'.runtime.submitted := by
  obtain ⟨_, -, hs⟩ := Section.bind_eq_ok.mp hs
  cases a with
  | session a => exact (h.sound.grows hs).1 q hq
  | leave => exact (h.sound.grows (a := .background .submitList) hs).1 q hq
  | direct ref opData =>
      obtain ⟨runtime, hr, hs⟩ := Section.bind_eq_ok.mp hs
      cases hs
      obtain ⟨-, rfl⟩ := Barrier.submitDirect_ok hr
      exact List.mem_append_left _ hq

end

/-! ### A request that waits for ever -/

/-- The request lies in buffer `i`, and thread `t` holds a buffer before it. -/
structure Starving (q : Request ι) (t : τ) (i j : ℕ) (s : Sessions.State τ ι) : Prop where
  kept : Kept s
  lt : j < i
  lies : i < bufferCount ∧ q ∈ (s.runtime.outstanding.buffer i).unread
  held : (t, j) ∈ s.runtime.held
  walk : s.walk j = none
  scheduler : ∀ k, s.runtime.scheduler = .extract k → k < i

namespace Starving

variable {q : Request ι} {t : τ} {i j : ℕ} {s s' : Sessions.State τ ι}
  (h : Starving q t i j s)
include h

omit [DecidableEq τ] in
/-- A request in a buffer has not been handed over. -/
theorem not_dispatched : q ∉ s.runtime.dispatched := by
  obtain ⟨p, hp, hR⟩ := h.kept.sound.traced
  have hord := Pipeline.State.Ordered.of_reachable hp
  obtain ⟨hi, hq⟩ := h.lies
  rw [(hR.lanes i hi).unread] at hq
  rw [← hR.delivered]
  exact fun hc => hord.not_mem_lane hc i hq

/-- A step that leaves the buffer, the session of the thread and the choice of the scheduler. -/
theorem of_step {a : Call τ ι} (hs : step s a = .ok s')
    (hbuffer : s'.runtime.outstanding.buffer i = s.runtime.outstanding.buffer i)
    (hheld : (t, j) ∈ s'.runtime.held) (hwalk : s'.walk j = none)
    (hscheduler : ∀ k, s'.runtime.scheduler = .extract k → k < i) : Starving q t i j s' where
  kept := h.kept.step hs
  lt := h.lt
  lies := hbuffer ▸ h.lies
  held := hheld
  walk := hwalk
  scheduler := hscheduler

theorem of_background {a : Call τ ι} {b : Sessions.Background} (hs : step s a = .ok s')
    (hb : Sessions.step s (.background b) = .ok s')
    (hscheduler : ∀ k, s'.runtime.scheduler = .extract k → k < i) : Starving q t i j s' := by
  obtain ⟨runtime, hr, hb⟩ := Section.bind_eq_ok.mp hb
  cases hb
  refine h.of_step hs ?_ ((Sessions.background_behind hr).held ▸ h.held) h.walk hscheduler
  cases b with
  | extract =>
      cases hat : s.runtime.scheduler with
      | select => simp only [Sessions.Background.action, Runtime.step, hat, reduceCtorEq] at hr
      | submit => simp only [Sessions.Background.action, Runtime.step, hat, reduceCtorEq] at hr
      | extract k =>
          simp only [Sessions.Background.action, Runtime.step, hat] at hr
          obtain ⟨b, -, hr⟩ := Section.bind_eq_ok.mp hr
          obtain ⟨⟨l', b'⟩, -, hr⟩ := Section.bind_eq_ok.mp hr
          cases hr
          have hki := h.scheduler k hat
          exact Function.update_of_ne (by omega) _ _
  | select =>
      obtain ⟨-, -, hr⟩ := Section.bind_eq_ok.mp hr
      obtain ⟨found, -, hr⟩ := Section.bind_eq_ok.mp hr
      cases hr
      rfl
  | submitList =>
      obtain ⟨-, -, hr⟩ := Section.bind_eq_ok.mp hr
      obtain ⟨⟨b', l'⟩, -, hr⟩ := Section.bind_eq_ok.mp hr
      cases hr
      rfl
  | read maxRequests =>
      obtain ⟨-, -, hr⟩ := Section.bind_eq_ok.mp hr
      obtain ⟨⟨l', b'⟩, -, hr⟩ := Section.bind_eq_ok.mp hr
      cases hr
      rfl
  | dispatch =>
      obtain ⟨-, -, hr⟩ := Section.bind_eq_ok.mp hr
      obtain ⟨r, -, hr⟩ := Section.bind_eq_ok.mp hr
      cases r with
      | none => cases hr
      | some r =>
          obtain ⟨request, -, hr⟩ := Section.bind_eq_ok.mp hr
          split at hr
          · cases hr
            rfl
          · cases hr
            rfl

omit h in
theorem perform_of_step {a : Call τ ι} (hs : step s a = .ok s') : perform s a = .ok s' := by
  obtain ⟨_, -, hs⟩ := Section.bind_eq_ok.mp hs
  exact hs

omit h in
/-- Without a request to hand over or to read the processing thread cannot do anything. -/
theorem processing_idle (h : Kept s) (hlisted : s.runtime.processingList.count = 0)
    (htrunk : s.runtime.heQatBuffer.count = 0) :
    ¬ ∃ b, Party.processing.acts b ∧ ((pacedSystem status).step s b).isSome := by
  rintro ⟨b, hb, hsome⟩
  obtain ⟨s', hs'⟩ := Option.isSome_iff_exists.mp hsome
  obtain ⟨-, hs'⟩ := TransitionSystem.restrict_step.mp hs'
  have hpass := passes h.sound (step_ok hs')
  generalize numbers s'.runtime = n at hpass
  rcases of_processing hb with rfl | ⟨m, rfl⟩
  · cases hpass with
    | last hlast =>
        simp only [numbers, hlisted] at hlast
        omega
    | dispatch hmore =>
        simp only [numbers, hlisted] at hmore
        omega
  · cases hpass with
    | read _ _ hne => exact hne htrunk

omit h in
/-- Nor can the device without a request to answer. -/
theorem device_idle (hpending : pending status s = 0) :
    ¬ ∃ b : Call τ ι, Party.device.acts b ∧ ((pacedSystem status).step s b).isSome := by
  rintro ⟨b, ⟨r, hb⟩, hsome⟩
  obtain ⟨s', hs'⟩ := Option.isSome_iff_exists.mp hsome
  obtain ⟨hpaced, hs'⟩ := TransitionSystem.restrict_step.mp hs'
  obtain ⟨out, rfl⟩ := of_device hb
  have hlt := pending_callback (step_ok hs') hpaced
  omega

/-- How far each of the parties is from its next step, when the device goes first and the
processing thread next, and the buffer before is filled again in time. -/
def toNext (status : Request ι → CpaStatus) (j : ℕ) (s : Sessions.State τ ι) : Party → ℕ
  | .device => 0
  | .processing => pending status s
  | .scheduler => 4 * (numbers s.runtime).trunk
      + 2 * ((numbers s.runtime).listed - (numbers s.runtime).processed) + pending status s
      + if (numbers s.runtime).lanes j = 0 then 1 else 0

/-- A step, and how near it is to the next step of each party. -/
def Goes (status : Request ι → CpaStatus) (q : Request ι) (t : τ) (i j : ℕ)
    (s : Sessions.State τ ι) : Prop :=
  ∃ a s', True ∧ (pacedSystem status).step s a = some s' ∧ Starving q t i j s' ∧
    ∀ k : Party, (∃ b, k.acts b ∧ ((pacedSystem status).step s b).isSome) →
      k.acts a ∨ toNext status j s' k < toNext status j s k

/-- The device goes first. -/
theorem goes_device (hpos : 0 < pending status s) : Goes status q t i j s := by
  obtain ⟨r, hr, hok, hnone⟩ := exists_pending hpos
  obtain ⟨s', hs⟩ := callback_run h.kept hr hnone []
  have hless := pending_callback (step_ok hs) hok
  have hpass := (passes h.kept.sound (step_ok hs)).callback_eq
  obtain ⟨-, -, request, -, hs'⟩ := Sessions.callback_ok (perform_of_step (step_ok hs))
  refine ⟨.session (.callback r []), s', trivial,
    TransitionSystem.restrict_step.mpr ⟨hok, hs⟩, ?_, ?_⟩
  · refine h.of_step (step_ok hs) ?_ ?_ ?_ ?_
    · rw [hs']
      rfl
    · rw [hs']
      exact h.held
    · rw [hs']
      exact h.walk
    · rw [hs']
      exact h.scheduler
  · intro k _
    cases k with
    | device => exact Or.inl ⟨r, rfl⟩
    | processing => exact Or.inr hless
    | scheduler =>
        right
        simp only [toNext, hpass]
        omega

/-- Then the processing thread. -/
theorem goes_processing {b : Sessions.Background}
    (hthread : (Call.session (.background b) : Call τ ι).thread = .processing)
    (hpending : pending status s = 0) (hpaced : Paced status s (.session (.background b)))
    (hrun : ∃ s', (system τ ι).step s (.session (.background b)) = some s') :
    Goes status q t i j s := by
  obtain ⟨s', hs⟩ := hrun
  have hpass := passes h.kept.sound (step_ok hs)
  have hmore : pending status s' ≤ handsOver (Call.session (.background b) : Call τ ι) := by
    rcases pending_cases h.kept (step_ok hs) hpaced with ⟨⟨r, hr⟩, -⟩ | ⟨-, -, hle⟩
    · rw [hthread] at hr
      cases hr
    · omega
  refine ⟨_, s', trivial, TransitionSystem.restrict_step.mpr ⟨hpaced, hs⟩,
    h.of_background (step_ok hs) (perform_of_step (step_ok hs)) ?_, ?_⟩
  · intro k hk
    have hsame := (hpass.scheduler_eq (by rw [hthread]; simp)).1
    exact h.scheduler k (hsame.symm.trans hk)
  · intro k hk
    cases k with
    | device => exact absurd hk (device_idle hpending)
    | processing => exact Or.inl hthread
    | scheduler =>
        right
        simp only [toNext]
        generalize numbers s'.runtime = n at hpass
        rcases of_processing hthread with heq | ⟨m, heq⟩
        · cases heq
          cases hpass with
          | last hlast =>
              simp only [handsOver] at hmore ⊢
              omega
          | dispatch hlt =>
              simp only [handsOver] at hmore ⊢
              omega
        · cases heq
          cases hpass with
          | read hmax hlisted hne =>
              rw [Throttle.toNat_restartThreshold] at hmax
              simp only [handsOver, hlisted] at hmore ⊢
              omega

omit [DecidableEq τ] [DecidableEq ι] h in
/-- The scheduler does not look at the counters. -/
theorem paced_of_scheduler {a : Call τ ι} (ha : a.thread = .scheduler) : Paced status s a := by
  rcases of_scheduler ha with rfl | rfl | rfl | rfl <;> trivial

/-- Then the scheduler, which does not come to buffer `i`. -/
theorem goes_scheduler {a : Call τ ι} {b : Sessions.Background} (hthread : a.thread = .scheduler)
    (hpending : pending status s = 0) (hlisted : s.runtime.processingList.count = 0)
    (htrunk : s.runtime.heQatBuffer.count = 0)
    (hperform : perform s a = Sessions.step s (.background b))
    (hrun : ∃ s', (system τ ι).step s a = some s')
    (hselect : a = .session (.background .select) → (numbers s.runtime).lanes j ≠ 0) :
    Goes status q t i j s := by
  obtain ⟨s', hs⟩ := hrun
  have hpass := passes h.kept.sound (step_ok hs)
  have hpaced : Paced status s a := paced_of_scheduler hthread
  refine ⟨a, s', trivial, TransitionSystem.restrict_step.mpr ⟨hpaced, hs⟩,
    h.of_background (step_ok hs) (hperform ▸ perform_of_step (step_ok hs)) ?_, ?_⟩
  · intro k hk
    have hk : (numbers s'.runtime).scheduler = .extract k := hk
    generalize numbers s'.runtime = n at hpass hk
    cases hpass with
    | @select found _ _ hsome _ =>
        cases found with
        | none => cases hk
        | some l =>
            cases hk
            -- the buffer of the thread comes before
            by_contra hge
            have hjk : j < k := h.lt.trans_le (Nat.le_of_not_lt hge)
            exact hselect rfl ((hsome k rfl).2.2 j hjk)
    | extract _ _ _ => cases hk
    | submitList _ _ _ => cases hk
    | leave _ _ => cases hk
    | _ => cases hthread
  · intro k hk
    cases k with
    | scheduler => exact Or.inl hthread
    | processing => exact absurd hk (processing_idle h.kept hlisted htrunk)
    | device => exact absurd hk (device_idle hpending)

/-- The thread submits the next request to its buffer. -/
theorem goes_call [Infinite ι] (hpending : pending status s = 0)
    (hlisted : s.runtime.processingList.count = 0) (htrunk : s.runtime.heQatBuffer.count = 0)
    (hempty : (numbers s.runtime).lanes j = 0) : Goes status q t i j s := by
  obtain ⟨p, -, hR⟩ := h.kept.sound.traced
  have hj := h.kept.sound.lt_of_held h.held
  obtain ⟨ref, hnew⟩ : ∃ ref, (⟨some j, ref⟩ : Request ι) ∉ s.runtime.submitted := by
    classical
    obtain ⟨ref, href⟩ := Infinite.exists_notMem_finset (s.runtime.submitted.map (·.ref)).toFinset
    exact ⟨ref, fun hc => href (List.mem_toFinset.mpr (List.mem_map_of_mem (f := (·.ref)) hc))⟩
  have hroom : (s.runtime.outstanding.buffer j).count < bufferSize := by
    rw [show (s.runtime.outstanding.buffer j).count = 0 from hempty]
    exact Nat.zero_lt_succ 1023
  have hrun := submitRequest_run (hR.lanes j hj) hroom (⟨some j, ref⟩ : Request ι)
  have hwait : ¬ ((t, j) ∉ s.runtime.held ∨ ⟨some j, ref⟩ ∈ s.runtime.submitted) := by
    push Not
    exact ⟨h.held, hnew⟩
  obtain ⟨runtime, hr⟩ : ∃ runtime, Runtime.step s.runtime (.submit t j ref) = .ok runtime :=
    ⟨_, by rw [Runtime.step, waitWhile_ok hwait, Section.bind_ok, Runtime.submitTo, load_ok hj,
      Section.bind_ok, hrun]; rfl⟩
  have hcall := Sessions.call_queued_run (a := .all) h.held h.walk rfl hr
  obtain ⟨s', hs'⟩ : ∃ s', s' = Sessions.submitted s runtime j ref (.packed .bnModExp 5) :=
    ⟨_, rfl⟩
  have hs : (system τ ι).step s (.session (.call t j ref .all)) = some s' :=
    hs' ▸ step_run trivial hcall
  have hpass := passes h.kept.sound (step_ok hs)
  have hmore : pending status s' ≤ pending status s := by
    rcases pending_cases h.kept (step_ok hs) trivial with ⟨⟨r, hr⟩, -⟩ | ⟨-, -, hle⟩
    · cases hr
    · exact hle
  have hnear : toNext status j s' .scheduler < toNext status j s .scheduler := by
    simp only [toNext, if_pos hempty]
    generalize numbers s'.runtime = n at hpass
    cases hpass with
    | fails ha => cases ha
    | call _ _ =>
        simp only [Function.update_self, Nat.succ_ne_zero, if_false]
        omega
  refine ⟨.session (.call t j ref .all), s', trivial,
    TransitionSystem.restrict_step.mpr ⟨trivial, hs⟩, ?_, ?_⟩
  · obtain ⟨-, rfl⟩ := Sessions.submit_ok hr
    subst hs'
    exact h.of_step (step_ok hs) (Function.update_of_ne (Nat.ne_of_gt h.lt) _ _) h.held h.walk
      h.scheduler
  · intro k hk
    cases k with
    | processing => exact absurd hk (processing_idle h.kept hlisted htrunk)
    | device => exact absurd hk (device_idle hpending)
    | scheduler => exact Or.inr hnear

theorem goes [Infinite ι] (hretry : ∀ r, status r ≠ .retry) : Goes status q t i j s := by
  have hexited : ¬ Exited status s := fun ⟨r, _, hr⟩ => hretry r hr
  by_cases hpending : pending status s = 0
  swap
  · exact h.goes_device (Nat.pos_of_ne_zero hpending)
  by_cases hlisted : s.runtime.processingList.count = 0
  swap
  · exact h.goes_processing (b := .dispatch) rfl hpending hexited (dispatch_run h.kept hlisted)
  by_cases htrunk : s.runtime.heQatBuffer.count = 0
  swap
  · have hroom : Throttle.restartThreshold.toNat ≤ available status s := by
      rw [available, hpending]
      decide
    exact h.goes_processing (b := .read (available status s)) rfl hpending ⟨hexited, le_rfl⟩
      (read_run h.kept hroom hlisted htrunk)
  cases hat : s.runtime.scheduler with
  | extract k =>
      exact h.goes_scheduler (a := .session (.background .extract)) rfl hpending hlisted htrunk rfl
        (extract_run h.kept hat) fun hc => by cases hc
  | submit =>
      by_cases hhand : s.runtime.schedulerList.count = 0
      · exact h.goes_scheduler (a := .leave) rfl hpending hlisted htrunk rfl (leave_run hat hhand)
          fun hc => by cases hc
      · obtain ⟨p, -, hR⟩ := h.kept.sound.traced
        have hcount := hR.hand.count_eq
        have hsize := hR.hand.le_size
        exact h.goes_scheduler (a := .session (.background .submitList)) rfl hpending hlisted
          htrunk rfl (submitList_run h.kept hat hhand (by omega)) fun hc => by cases hc
  | select =>
      by_cases hempty : (numbers s.runtime).lanes j = 0
      · exact h.goes_call hpending hlisted htrunk hempty
      · exact h.goes_scheduler (a := .session (.background .select)) rfl hpending hlisted htrunk rfl
          (select_run h.kept hat (Nat.ne_of_gt (List.length_pos_of_mem h.held))) fun _ => hempty

end Starving

/-- Two threads hold the first two buffers, each with a request in it. -/
def twoBuffers : List (Call ℕ ℕ) :=
  [.session (.acquire 1 7), .session (.acquire 2 7), .session (.call 2 1 20 .all),
    .session (.call 1 0 10 .all)]

theorem twoBuffers_run :
    ∃ s : Sessions.State ℕ ℕ, (pacedSystem fun _ => .success).Reachable s ∧
    (2, 1) ∈ s.runtime.held ∧ (1, 0) ∈ s.runtime.held ∧ (s.walk 0).isNone ∧
    s.runtime.scheduler = .select ∧ ⟨some 0, 10⟩ ∈ s.runtime.submitted ∧
    ⟨some 1, 20⟩ ∈ (s.runtime.outstanding.buffer 1).unread := by
  have hrun : ((pacedSystem fun _ => .success).run Sessions.State.initial twoBuffers).map
      (fun s => decide
      ((2, 1) ∈ s.runtime.held ∧ (1, 0) ∈ s.runtime.held ∧ (s.walk 0).isNone ∧
        s.runtime.scheduler = .select ∧ ⟨some 0, 10⟩ ∈ s.runtime.submitted ∧
        ⟨some 1, 20⟩ ∈ (s.runtime.outstanding.buffer 1).unread)) = some true := by
    decide +kernel
  obtain ⟨s, hs, hx⟩ := TransitionSystem.reachable_of_map_run (pacedSystem _) rfl hrun
  exact ⟨s, hs, of_decide_eq_true hx⟩

section
variable {q : Request ι} {i n : ℕ} {r : (pacedSystem (τ := τ) status).Run fun _ _ => True}

omit [DecidableEq τ] [DecidableEq ι] in
theorem isDirect_of_not_overtakes {a : Call τ ι} (h : ¬ Overtakes i a) : isDirect a = false := by
  cases a with
  | direct ref opData => exact absurd trivial h
  | _ => rfl

/-- The scheduler extracts it. -/
theorem extracted (hfair : ∀ k : Party, r.WeaklyFair k.acts) (hvia : q.via = some i)
    (hgoing : ∀ m, n ≤ m → ¬ Exited status (r.state m))
    (hquiet : ∀ m, n ≤ m → ¬ Overtakes i (r.action m)) (hkept : Kept (r.state n))
    (hq : q ∈ (r.state n).runtime.submitted) :
    ∃ m, n ≤ m ∧ Kept (r.state m) ∧ q ∈ (r.state m).runtime.ahead := by
  by_cases hahead : q ∈ (r.state n).runtime.ahead
  · exact ⟨n, le_rfl, hkept, hahead⟩
  refine r.reaches_helpful (helpful status) hfair
    (fun s => Kept s ∧ ¬ Exited status s ∧ q ∈ s.runtime.submitted ∧ q ∉ s.runtime.ahead)
    (fun s => Kept s ∧ q ∈ s.runtime.ahead)
    (fun s => 2 * (numbers s.runtime).before i + pending status s) ?_ ?_
    ⟨hkept, hgoing n le_rfl, hq, hahead⟩
  · rintro m hnm ⟨hk, -, hsub, hnot⟩
    obtain ⟨hpaced, hs⟩ := TransitionSystem.restrict_step.mp (r.step m)
    have hs := step_ok hs
    have hpass := passes hk.sound hs
    obtain ⟨hi, hne⟩ := lane_ne_zero hk hvia hsub hnot
    have hk' := hk.step hs
    by_cases hleft : q ∈ (r.state (m + 1)).runtime.ahead
    · exact Or.inl ⟨hk', hleft⟩
    have hsub' := submitted_step hk hs hsub
    refine Or.inr ⟨⟨hk', hgoing (m + 1) (by omega), hsub', hleft⟩, ?_⟩
    rcases hpass.before (hquiet m hnm) (fun j hj => lane_le hk hj) hi hne with
      ⟨ha, hat⟩ | hlt | ⟨heq, hlisted, htrunk, hscheduler, hprocessing⟩
    · -- extracted, so it is no longer in its buffer
      obtain ⟨-, hne'⟩ := lane_ne_zero hk' hvia hsub' hleft
      rw [ha] at hpass
      generalize numbers (r.state (m + 1)).runtime = n' at hpass hne'
      cases hpass with
      | extract hat' _ _ =>
          rw [hat] at hat'
          cases hat'
          exact absurd (Function.update_self _ _ _) hne'
    · exact (rank_cases hk hs hpaced (Or.inl hlt)).imp_right fun heq => absurd heq.1 hlt.ne
    · refine (rank_cases hk hs hpaced (Or.inr ⟨heq, hprocessing⟩)).imp_right ?_
      rintro ⟨-, hpending, hdevice⟩
      exact ⟨by rw [heq, hpending], helpful_eq hlisted (fun _ => by rw [htrunk]) hpending,
        not_helpful hprocessing hdevice fun _ _ => hscheduler⟩
  · rintro s ⟨hk, hexited, hsub, hnot⟩
    exact helpful_enabled hk hexited (Or.inl ⟨i, lane_ne_zero hk hvia hsub hnot⟩)

omit [DecidableEq τ] [DecidableEq ι] in
/-- Requests are handed over in the order in which they have left the buffers. -/
theorem mem_dispatched {s : Sessions.State τ ι} {p : ℕ} (hat : s.runtime.ahead[p]? = some q)
    (hlt : p < s.runtime.dispatched.length) : q ∈ s.runtime.dispatched := by
  rw [Runtime.State.ahead, List.append_assoc, List.append_assoc,
    List.getElem?_append_left hlt] at hat
  exact List.mem_of_getElem? hat

omit [DecidableEq τ] in
/-- A request that has left its buffer is handed over, in the batch, in the ring or with the
scheduler. -/
theorem place_lt {s : Sessions.State τ ι} {p : ℕ} (h : Kept s)
    (hat : s.runtime.ahead[p]? = some q) :
    p < s.runtime.dispatched.length
      + ((numbers s.runtime).listed - (numbers s.runtime).processed) + (numbers s.runtime).trunk
      + (numbers s.runtime).hand := by
  rw [← ahead_length h]
  exact (List.getElem?_eq_some_iff.mp hat).1

/-- After that it is handed over. -/
theorem handed_over (hfair : ∀ k : Party, r.WeaklyFair k.acts)
    (hgoing : ∀ m, n ≤ m → ¬ Exited status (r.state m))
    (hquiet : ∀ m, n ≤ m → ¬ Overtakes i (r.action m)) (hkept : Kept (r.state n))
    (hq : q ∈ (r.state n).runtime.ahead) :
    ∃ m, n ≤ m ∧ q ∈ (r.state m).runtime.dispatched := by
  obtain ⟨p, hp⟩ := List.mem_iff_getElem?.mp hq
  by_cases hlt : p < (r.state n).runtime.dispatched.length
  · exact ⟨n, le_rfl, mem_dispatched hp hlt⟩
  refine r.reaches_helpful (helpful status) hfair
    (fun s => Kept s ∧ ¬ Exited status s ∧ s.runtime.ahead[p]? = some q ∧
      s.runtime.dispatched.length ≤ p)
    (fun s => q ∈ s.runtime.dispatched)
    (fun s => 2 * (numbers s.runtime).behind p s.runtime.dispatched.length + pending status s)
    ?_ ?_ ⟨hkept, hgoing n le_rfl, hp, Nat.le_of_not_lt hlt⟩
  · rintro m hnm ⟨hk, -, hat, hle⟩
    obtain ⟨hpaced, hs⟩ := TransitionSystem.restrict_step.mp (r.step m)
    have hs := step_ok hs
    have hdirect := isDirect_of_not_overtakes (hquiet m hnm)
    have honward := onward hk hs hdirect
    have hat' : (r.state (m + 1)).runtime.ahead[p]? = some q := by
      obtain ⟨more, hmore⟩ := honward.ahead
      rw [← hmore, List.getElem?_append_left (List.getElem?_eq_some_iff.mp hat).1, hat]
    by_cases hmore : p < (r.state (m + 1)).runtime.dispatched.length
    · exact Or.inl (mem_dispatched hat' hmore)
    refine Or.inr ⟨⟨hk.step hs, hgoing (m + 1) (by omega), hat', Nat.le_of_not_lt hmore⟩, ?_⟩
    have hpass := passes hk.sound hs
    have hbehind := hpass.behind hdirect (hand_zero hk) hle (place_lt hk hat)
    rw [← honward.length] at hbehind
    rcases hbehind with hlt | ⟨heq, hrest, hprocessing⟩
    · exact (rank_cases hk hs hpaced (Or.inl hlt)).imp_right fun heq => absurd heq.1 hlt.ne
    · refine (rank_cases hk hs hpaced (Or.inr ⟨heq, hprocessing⟩)).imp_right ?_
      rintro ⟨-, hpending, hdevice⟩
      have hlisted := (hpass.listed_eq hprocessing).1
      exact ⟨by rw [heq, hpending], helpful_eq hlisted (fun hzero => (hrest hzero).1) hpending,
        not_helpful hprocessing hdevice fun hzero hempty => (hrest hzero).2 hempty⟩
  · rintro s ⟨hk, hexited, hat, hle⟩
    refine helpful_enabled hk hexited (Or.inr ?_)
    have hlt := place_lt hk hat
    omega

/--
**Only requests before it keep a request waiting.**

In every run in which the scheduler, the processing thread and the device get their turns, a
request that has been submitted to an outstanding buffer is handed to the device, or the device
asks for a retry and the processing thread ends itself, or the request is overtaken for ever:
there is no end of requests to the buffers before its own and of direct submissions.
-/
theorem overtaken_or_dispatched (hfair : ∀ k : Party, r.WeaklyFair k.acts)
    (hstart : (pacedSystem status).Reachable (r.state 0)) (hvia : q.via = some i)
    (hq : q ∈ (r.state n).runtime.submitted) :
    (∃ m, n ≤ m ∧ q ∈ (r.state m).runtime.dispatched) ∨
      (∃ m, n ≤ m ∧ Exited status (r.state m)) ∨
        ∀ m, ∃ k, m ≤ k ∧ Overtakes i (r.action k) := by
  by_contra hc
  push Not at hc
  obtain ⟨hnever, hgoing, m, hquiet⟩ := hc
  have hkept : ∀ k, Kept (r.state k) := fun k => kept <|
    TransitionSystem.reachable_of_restrict (r.reachable hstart k)
  have hsub : ∀ k, n ≤ k → q ∈ (r.state k).runtime.submitted := by
    intro k hnk
    induction hnk with
    | refl => exact hq
    | @step k _ ih =>
        obtain ⟨-, hs⟩ := TransitionSystem.restrict_step.mp (r.step k)
        exact submitted_step (hkept k) (step_ok hs) ih
  have hfrom := le_max_left n m
  obtain ⟨k, hk, hkeptk, hahead⟩ := extracted (n := max n m) hfair hvia
    (fun j hj => hgoing j (by omega)) (fun j hj => hquiet j (by omega)) (hkept _) (hsub _ hfrom)
  obtain ⟨j, hj, hdone⟩ := handed_over (n := k) hfair (fun j hj => hgoing j (by omega))
    (fun j hj => hquiet j (by omega)) hkeptk hahead
  exact hnever j (by omega) hdone

end

theorem overtaken_or_dispatched_two :
    ∃ r : (pacedSystem (τ := ℕ) fun _ : Request ℕ => .success).Run fun _ _ => True,
      (⟨some 0, 10⟩ : Request ℕ) ∈ (r.state 0).runtime.submitted ∧
        ((∃ m, 0 ≤ m ∧ (⟨some 0, 10⟩ : Request ℕ) ∈ (r.state m).runtime.dispatched) ∨
          (∃ m, 0 ≤ m ∧ Exited (fun _ => .success) (r.state m)) ∨
            ∀ m, ∃ k, m ≤ k ∧ Overtakes 0 (r.action k)) := by
  obtain ⟨s, hs, -, hheld, hwalk, hat, hsub, hunread⟩ := twoBuffers_run
  have hstarving : Starving ⟨some 1, 20⟩ 1 1 0 s :=
    ⟨kept (TransitionSystem.reachable_of_restrict hs), Nat.zero_lt_one, ⟨by decide, hunread⟩,
      hheld, Option.isNone_iff_eq_none.mp hwalk,
      fun k hk => by rw [hat] at hk; cases hk⟩
  obtain ⟨r, rfl, hfair, -⟩ : ∃ r : (pacedSystem fun _ : Request ℕ => .success).Run fun _ _ => True,
      r.state 0 = s ∧ (∀ k : Party, r.WeaklyFair k.acts) ∧
        ∀ n, Starving ⟨some 1, 20⟩ 1 1 0 (r.state n) :=
    TransitionSystem.Run.exists_fair (fun k s => Starving.toNext (fun _ => .success) 0 s k)
      (fun s hs => hs.goes fun r hr => by cases hr) hstarving
  exact ⟨r, hsub, overtaken_or_dispatched hfair hs rfl hsub⟩

end Ipcl.HeQat.Wakeups
