/-
No thread of the runtime sleeps beside its work.

Nearly all that decides whether a section has to wait are numbers: where the scheduler is, how
many requests each queue holds, and how many buffers are taken.  `Passes` says what each
section does to them.  From it follow both rules against lost wake-ups, for the variables on
which one thread waits and for the two on which several compete, and a rank that the threads of
the runtime lower as long as a request is on its way.

`any_free_slot` of the internal ring is the delicate one.  The scheduler and the direct
submissions wait on it for different things, and a read wakes one of them only, maybe one for
which there is still too little room.  So there may be room beside a sleeper.  But when the
ring is empty, one of them is awake, and whoever it is will find room and fill the ring again.
-/
import Ipcl.HeQat.Wakeups
import Ipcl.Proofs.HeQat.Barrier
import Ipcl.Proofs.HeQat.Passage
import Ipcl.Proofs.HeQat.Slices
import Ipcl.Proofs.HeQat.Throttle

namespace Ipcl.HeQat.Wakeups

open Sessions (Sound Traced)

variable {τ ι : Type}

/-! ### What the sections do to the numbers -/

/-- Where the scheduler is, the requests in each queue, and the buffers taken. -/
structure Numbers where
  scheduler : SchedulerAt
  hand : ℕ
  trunk : ℕ
  listed : ℕ
  processed : ℕ
  lanes : ℕ → ℕ
  busy : ℕ

def numbers (s : Runtime.State τ ι) : Numbers where
  scheduler := s.scheduler
  hand := s.schedulerList.count
  trunk := s.heQatBuffer.count
  listed := s.processingList.count
  processed := s.processed
  lanes i := (s.outstanding.buffer i).count
  busy := s.held.length

/-- What the section of a call needs, and what it does. -/
inductive Passes (n : Numbers) : Call τ ι → Numbers → Prop
  | acquire {t : τ} {id : ℕ} (hroom : n.busy < bufferCount) :
      Passes n (.session (.acquire t id)) { n with busy := n.busy + 1 }
  | fails {t : τ} {i : ℕ} {ref : ι} {a : Resources}
      (ha : (packRequest a).isOk = false) : Passes n (.session (.call t i ref a)) n
  | call {t : τ} {i : ℕ} {ref : ι} {a : Resources}
      (ha : (packRequest a).isOk) (hroom : n.lanes i < bufferSize) :
      Passes n (.session (.call t i ref a))
        { n with lanes := Function.update n.lanes i (n.lanes i + 1) }
  | select {found : Option ℕ} (hat : n.scheduler = .select) (hbusy : n.busy ≠ 0)
      (hsome : ∀ i, found = some i →
        i < bufferCount ∧ n.lanes i ≠ 0 ∧ ∀ j < i, n.lanes j = 0)
      (hnone : found = none → ∀ i < bufferCount, n.lanes i = 0) :
      Passes n (.session (.background .select))
        { n with hand := 0, scheduler := Runtime.afterSelect found }
  | extract {i : ℕ} (hat : n.scheduler = .extract i) (hi : i < bufferCount)
      (hne : n.lanes i ≠ 0) :
      Passes n (.session (.background .extract)) { n with
        lanes := Function.update n.lanes i 0
        hand := n.lanes i
        scheduler := .submit }
  | submitList (hat : n.scheduler = .submit) (hne : n.hand ≠ 0)
      (hroom : n.trunk + n.hand ≤ bufferSize) :
      Passes n (.session (.background .submitList)) { n with
        trunk := n.trunk + n.hand
        hand := 0
        scheduler := .select }
  | read {maxRequests : ℕ} (hmax : Throttle.restartThreshold.toNat ≤ maxRequests)
      (hlisted : n.listed = 0) (hne : n.trunk ≠ 0) :
      Passes n (.session (.background (.read maxRequests))) { n with
        trunk := n.trunk - min n.trunk maxRequests
        listed := min n.trunk maxRequests
        processed := 0 }
  | last (hlast : n.processed + 1 = n.listed) :
      Passes n (.session (.background .dispatch)) { n with listed := 0, processed := 0 }
  | dispatch (hmore : n.processed + 1 < n.listed) :
      Passes n (.session (.background .dispatch)) { n with processed := n.processed + 1 }
  | callback {r : Request ι} {out : List ℕ} : Passes n (.session (.callback r out)) n
  | release {t : τ} {i batchSize : ℕ} : Passes n (.session (.release t i batchSize)) n
  | look {t : τ} {i : ℕ} : Passes n (.session (.look t i)) n
  | finish {t : τ} {i : ℕ} : Passes n (.session (.finish t i)) n
  | giveBack {t : τ} {i : ℕ} (hne : n.busy ≠ 0) :
      Passes n (.session (.giveBack t i)) { n with busy := n.busy - 1 }
  | leave (hat : n.scheduler = .submit) (hhand : n.hand = 0) :
      Passes n .leave { n with scheduler := .select }
  | direct {ref : ι} {opData : ℕ} (hroom : n.trunk < bufferSize) :
      Passes n (.direct ref opData) { n with trunk := n.trunk + 1 }

/-- The counts of the rings, with one of them replaced. -/
theorem lanes_update (buffer : ℕ → RequestBuffer (Request ι)) (i : ℕ)
    (b : RequestBuffer (Request ι)) :
    (fun j => (Function.update buffer i b j).count)
      = Function.update (fun j => (buffer j).count) i b.count := by
  funext j
  by_cases hj : j = i
  · rw [hj, Function.update_self, Function.update_self]
  · rw [Function.update_of_ne hj, Function.update_of_ne hj]

/-- The scheduler extracts from a buffer with a request. -/
theorem Passes.chosen {n n' : Numbers} {a : Call τ ι} (hpass : Passes n a n')
    (h : ∀ i, n.scheduler = .extract i → n.lanes i ≠ 0) :
    ∀ i, n'.scheduler = .extract i → n'.lanes i ≠ 0 := by
  intro i hi
  cases hpass with
  | @select found hat _ hsome _ =>
      cases found with
      | none => cases hi
      | some j =>
          cases hi
          exact (hsome i rfl).2.1
  | @call t j ref a _ _ =>
      by_cases hij : i = j
      · subst hij
        simp only [Function.update_self, ne_eq, Nat.add_eq_zero_iff, not_and]
        omega
      · simp only [Function.update_of_ne hij]
        exact h i hi
  | extract _ _ _ => cases hi
  | submitList _ _ _ => cases hi
  | leave _ _ => cases hi
  | _ => exact h i hi

/-- The processing thread is somewhere in its list, or has none. -/
theorem Passes.listed {n n' : Numbers} {a : Call τ ι} (hpass : Passes n a n')
    (h : n.listed = 0 ∨ n.processed < n.listed) : n'.listed = 0 ∨ n'.processed < n'.listed := by
  cases hpass with
  | @read m hmax _ hne =>
      rw [Throttle.toNat_restartThreshold] at hmax
      right
      show 0 < min n.trunk m
      omega
  | last _ => exact Or.inl rfl
  | dispatch hmore => exact Or.inr hmore
  | _ => exact h

/-- Requests leave a buffer only when the scheduler extracts them. -/
theorem Passes.lanes_cases {n n' : Numbers} {a : Call τ ι} (hpass : Passes n a n') (i : ℕ) :
    n.lanes i ≤ n'.lanes i ∨
      a = .session (.background .extract) ∧ n.scheduler = .extract i := by
  cases hpass with
  | @call t j ref a _ _ =>
      left
      by_cases hij : i = j
      · subst hij
        simp only [Function.update_self]
        omega
      · simp only [Function.update_of_ne hij]
        exact le_rfl
  | @extract j hat _ _ =>
      by_cases hij : i = j
      · exact Or.inr ⟨rfl, hij ▸ hat⟩
      · simp only [Function.update_of_ne hij]
        exact Or.inl le_rfl
  | _ => exact Or.inl le_rfl

theorem Passes.scheduler_eq {n n' : Numbers} {a : Call τ ι} (hpass : Passes n a n')
    (ha : a.thread ≠ .scheduler) : n'.scheduler = n.scheduler ∧ n'.hand = n.hand := by
  cases hpass with
  | select _ _ _ _ => exact absurd rfl ha
  | extract _ _ _ => exact absurd rfl ha
  | submitList _ _ _ => exact absurd rfl ha
  | leave _ _ => exact absurd rfl ha
  | _ => exact ⟨rfl, rfl⟩

theorem Passes.listed_eq {n n' : Numbers} {a : Call τ ι} (hpass : Passes n a n')
    (ha : a.thread ≠ .processing) : n'.listed = n.listed ∧ n'.processed = n.processed := by
  cases hpass with
  | read _ _ _ => exact absurd rfl ha
  | last _ => exact absurd rfl ha
  | dispatch _ => exact absurd rfl ha
  | _ => exact ⟨rfl, rfl⟩

theorem Passes.busy_cases {n n' : Numbers} {a : Call τ ι} (hpass : Passes n a n') :
    n'.busy ≤ n.busy ∨ ∃ t id, a = .session (.acquire t id) := by
  cases hpass with
  | @acquire t id _ => exact Or.inr ⟨t, id, rfl⟩
  | giveBack _ => exact Or.inl (Nat.sub_le _ _)
  | _ => exact Or.inl le_rfl

/-- The calls of a session are made as planned. -/
theorem admits_planned {s : Sessions.State τ ι} {a : Sessions.Action τ ι}
    (h : Admits s (.session a)) : Sessions.Planned s a := by
  cases a with
  | background a => trivial
  | _ => exact h

variable [DecidableEq τ] [DecidableEq ι]

section
variable {s s' : Sessions.State τ ι} (h : Sound s)
include h

omit [DecidableEq τ] in
/-- Requests wait only in buffers that are taken. -/
theorem held_of_lane {i : ℕ} (hi : i < bufferCount)
    (hne : (s.runtime.outstanding.buffer i).count ≠ 0) :
    i ∈ s.runtime.held.map (·.2) := by
  by_contra hc
  have hsession := h.session i hi
  obtain ⟨hcalls, hwalk⟩ := h.idle i hc
  rw [hcalls, hwalk] at hsession
  exact hne (h.traced.drained hi fun x hx => hsession.filled.all_none (Nat.zero_le _) hx).1

omit [DecidableEq τ] in
/-- The scheduler finds a buffer with a request, if there is one. -/
theorem find_ready (i : ℕ) (hi : i < bufferCount) :
    (s.runtime.outstanding.readyBuffer i ≠ 0 ∧ (s.runtime.outstanding.buffer i).count ≠ 0) ↔
      (s.runtime.outstanding.buffer i).count ≠ 0 := by
  refine ⟨And.right, fun hne => ⟨?_, hne⟩⟩
  rw [h.traced.owned.ready i hi, if_pos (held_of_lane h hi hne)]
  decide

omit [DecidableEq τ] in
theorem busy_eq : s.runtime.outstanding.busyCount = (numbers s.runtime).busy :=
  h.traced.owned.busy

theorem passes_select (hs : Sessions.step s (.background .select) = .ok s') :
    Passes (numbers s.runtime) (.session (.background .select) : Call τ ι)
      (numbers s'.runtime) := by
  obtain ⟨runtime, hr, hs⟩ := Section.bind_eq_ok.mp hs
  cases hs
  obtain ⟨_, hat, hr⟩ := Section.bind_eq_ok.mp hr
  obtain ⟨found, hpull, hr⟩ := Section.bind_eq_ok.mp hr
  cases hr
  obtain ⟨_, hbusy, hpull⟩ := Section.bind_eq_ok.mp hpull
  cases hpull
  have hbusy := of_waitWhile_ok hbusy
  rw [busy_eq h] at hbusy
  refine .select (not_not.mp (of_waitWhile_ok hat)) (by omega) ?_ ?_
  · intro i hfound
    obtain ⟨hready, hmem, hfirst⟩ := List.find?_range_eq_some.mp hfound
    have hi := List.mem_range.mp hmem
    simp only [decide_eq_true_eq] at hready
    refine ⟨hi, hready.2, fun j hj => ?_⟩
    by_contra hne
    have hskip := hfirst j hj
    simp only [Bool.not_eq_true', decide_eq_false_iff_not] at hskip
    exact hskip ((find_ready h j (hj.trans hi)).mpr hne)
  · intro hfound i hi
    by_contra hne
    have hready := List.find?_eq_none.mp hfound i (List.mem_range.mpr hi)
    simp only [decide_eq_true_eq] at hready
    exact hready ((find_ready h i hi).mpr hne)

theorem passes_extract (hs : Sessions.step s (.background .extract) = .ok s') :
    Passes (numbers s.runtime) (.session (.background .extract) : Call τ ι)
      (numbers s'.runtime) := by
  obtain ⟨runtime, hr, hs⟩ := Section.bind_eq_ok.mp hs
  cases hs
  obtain ⟨t, -, hR⟩ := h.traced
  cases hat : s.runtime.scheduler with
  | select => simp only [Sessions.Background.action, Runtime.step, hat, reduceCtorEq] at hr
  | submit => simp only [Sessions.Background.action, Runtime.step, hat, reduceCtorEq] at hr
  | extract i =>
      simp only [Sessions.Background.action, Runtime.step, hat] at hr
      obtain ⟨b, hb, hr⟩ := Section.bind_eq_ok.mp hr
      obtain ⟨⟨l', b'⟩, hpull, hr⟩ := Section.bind_eq_ok.mp hr
      cases hr
      have hok := hR.scheduler
      rw [hat] at hok
      have hlane := hR.lanes i hok.2
      rw [load_eq_ok hb] at hpull
      obtain ⟨_, hne, -⟩ := Section.bind_eq_ok.mp hpull
      have hpos := of_waitWhile_ok hne
      rcases pullExtract_spec hlane s.runtime.schedulerList bufferSize with
        hc | ⟨l, b₁, hrun, hl, hb₁⟩
      · rw [hc] at hpull
        cases hpull
      rw [hrun] at hpull
      cases hpull
      rw [Nat.min_eq_left hlane.length_le] at hl hb₁
      have hhand : l'.count = (s.runtime.outstanding.buffer i).count := by
        rw [hl.count_eq, List.take_length, hlane.count_eq]
      have hlane' : b'.count = 0 := by
        rw [hb₁.count_eq, List.drop_length, List.length_nil]
      have hpass : Passes (numbers s.runtime) (.session (.background .extract) : Call τ ι) _ :=
        .extract hat hok.2 (Nat.ne_of_gt (Nat.lt_of_not_le hpos))
      simp only [numbers, lanes_update, hhand, hlane'] at hpass ⊢
      exact hpass

theorem passes_submitList (hne : s.runtime.schedulerList.count ≠ 0)
    (hs : Sessions.step s (.background .submitList) = .ok s') :
    Passes (numbers s.runtime) (.session (.background .submitList) : Call τ ι)
      (numbers s'.runtime) := by
  obtain ⟨runtime, hr, hs⟩ := Section.bind_eq_ok.mp hs
  cases hs
  obtain ⟨t, -, hR⟩ := h.traced
  obtain ⟨_, hat, hr⟩ := Section.bind_eq_ok.mp hr
  obtain ⟨⟨b', l'⟩, hsub, hr⟩ := Section.bind_eq_ok.mp hr
  cases hr
  have hwait : ¬ (s.runtime.heQatBuffer.count ≥ bufferSize ∨
      bufferSize - s.runtime.heQatBuffer.count < s.runtime.schedulerList.count) := by
    rw [submitRequestList, if_neg hne] at hsub
    obtain ⟨_, hwait, -⟩ := Section.bind_eq_ok.mp hsub
    exact of_waitWhile_ok hwait
  rcases submitRequestList_spec hR.trunk hR.hand with hc | ⟨b, l, hrun, hb, hl⟩
  · rw [hc] at hsub
    cases hsub
  rw [hrun] at hsub
  cases hsub
  have htrunk : b'.count = s.runtime.heQatBuffer.count + s.runtime.schedulerList.count := by
    rw [hb.count_eq, List.length_append, hR.trunk.count_eq, hR.hand.count_eq]
  have hhand : l'.count = 0 := hl.count_eq
  have hpass : Passes (numbers s.runtime) (.session (.background .submitList) : Call τ ι) _ :=
    .submitList (not_not.mp (of_waitWhile_ok hat)) hne
    (by change s.runtime.heQatBuffer.count + s.runtime.schedulerList.count ≤ bufferSize; omega)
  simp only [numbers, htrunk, hhand] at hpass ⊢
  exact hpass

omit [DecidableEq ι] h in
theorem passes_leave [DecidableEq ι] (hzero : s.runtime.schedulerList.count = 0)
    (hs : Sessions.step s (.background .submitList) = .ok s') :
    Passes (numbers s.runtime) (.leave : Call τ ι) (numbers s'.runtime) := by
  obtain ⟨runtime, hr, hs⟩ := Section.bind_eq_ok.mp hs
  cases hs
  obtain ⟨_, hat, hr⟩ := Section.bind_eq_ok.mp hr
  obtain ⟨⟨b', l'⟩, hsub, hr⟩ := Section.bind_eq_ok.mp hr
  cases hr
  rw [submitRequestList, if_pos hzero] at hsub
  cases hsub
  exact .leave (not_not.mp (of_waitWhile_ok hat)) hzero

theorem passes_read {maxRequests : ℕ} (hmax : Throttle.restartThreshold.toNat ≤ maxRequests)
    (hs : Sessions.step s (.background (.read maxRequests)) = .ok s') :
    Passes (numbers s.runtime) (.session (.background (.read maxRequests)) : Call τ ι)
      (numbers s'.runtime) := by
  obtain ⟨runtime, hr, hs⟩ := Section.bind_eq_ok.mp hs
  cases hs
  obtain ⟨t, -, hR⟩ := h.traced
  obtain ⟨_, hidle, hr⟩ := Section.bind_eq_ok.mp hr
  obtain ⟨⟨l', b'⟩, hread, hr⟩ := Section.bind_eq_ok.mp hr
  cases hr
  have hzero := not_not.mp (of_waitWhile_ok hidle)
  obtain ⟨_, hne, -⟩ := Section.bind_eq_ok.mp hread
  have hpos := of_waitWhile_ok hne
  rcases readRequestList_spec hR.trunk s.runtime.processingList maxRequests with
    hc | ⟨l, b, hrun, hl, hb⟩
  · rw [hc] at hread
    cases hread
  rw [hrun] at hread
  cases hread
  have hcount := hR.trunk.count_eq
  have hbatch : l'.count = min s.runtime.heQatBuffer.count maxRequests := by
    rw [hl.count_eq, List.length_take, hcount]
    omega
  have htrunk : b'.count
      = s.runtime.heQatBuffer.count - min s.runtime.heQatBuffer.count maxRequests := by
    rw [hb.count_eq, List.length_drop, hcount]
  have hpass : Passes (numbers s.runtime)
      (.session (.background (.read maxRequests)) : Call τ ι) _ :=
    .read hmax hzero (Nat.ne_of_gt (Nat.lt_of_not_le hpos))
  simp only [numbers, htrunk, hbatch] at hpass ⊢
  exact hpass

omit [DecidableEq ι] h in
theorem passes_dispatch [DecidableEq ι]
    (hs : Sessions.step s (.background .dispatch) = .ok s') :
    Passes (numbers s.runtime) (.session (.background .dispatch) : Call τ ι)
      (numbers s'.runtime) := by
  obtain ⟨runtime, hr, hs⟩ := Section.bind_eq_ok.mp hs
  cases hs
  obtain ⟨_, hlt, hr⟩ := Section.bind_eq_ok.mp hr
  have hlt := of_waitWhile_ok hlt
  obtain ⟨r, -, hr⟩ := Section.bind_eq_ok.mp hr
  cases r with
  | none => cases hr
  | some r =>
      obtain ⟨request, -, hr⟩ := Section.bind_eq_ok.mp hr
      split at hr
      · next hlast =>
          cases hr
          exact .last hlast
      · cases hr
        exact .dispatch (by simp only [numbers]; omega)

theorem passes_giveBack {t : τ} {i : ℕ} (hs : Sessions.step s (.giveBack t i) = .ok s') :
    Passes (numbers s.runtime) (.session (.giveBack t i) : Call τ ι) (numbers s'.runtime) := by
  obtain ⟨hmem, w, o, -, -, hbuf, rfl⟩ := h.giveBack_effect hs
  have hpos := List.length_pos_of_mem hmem
  have hpass : Passes (numbers s.runtime) (.session (.giveBack t i) : Call τ ι) _ :=
    .giveBack (Nat.ne_of_gt hpos)
  have hlanes : (fun j => (o.buffer j).count)
      = fun j => (s.runtime.outstanding.buffer j).count := by
    rw [hbuf, lanes_update]
    exact Function.update_eq_self i _
  simp only [numbers, Sessions.handed, hlanes, List.length_erase_of_mem hmem] at hpass ⊢
  exact hpass

theorem passes_acquire {t : τ} {id : ℕ} (hs : Sessions.step s (.acquire t id) = .ok s') :
    Passes (numbers s.runtime) (.session (.acquire t id) : Call τ ι) (numbers s'.runtime) := by
  obtain ⟨runtime, hr, hs⟩ := Section.bind_eq_ok.mp hs
  cases hs
  have hroom : (numbers s.runtime).busy < bufferCount := by
    obtain ⟨_, hacq, -⟩ := Section.bind_eq_ok.mp hr
    obtain ⟨_, hwait, -⟩ := Section.bind_eq_ok.mp hacq
    exact busy_eq h ▸ Nat.lt_of_not_le (of_waitWhile_ok hwait)
  obtain ⟨id', o, hbuf, rfl⟩ := Sessions.acquire_ok h.traced.owned hr
  have hpass : Passes (numbers s.runtime) (.session (.acquire t id) : Call τ ι) _ :=
    .acquire hroom
  simp only [numbers, hbuf, List.length_cons] at hpass ⊢
  exact hpass

omit [DecidableEq ι] h in
theorem passes_call [DecidableEq ι] {t : τ} {i : ℕ} {ref : ι} {a : Resources}
    (hs : Sessions.step s (.call t i ref a) = .ok s') :
    Passes (numbers s.runtime) (.session (.call t i ref a) : Call τ ι) (numbers s'.runtime) := by
  obtain ⟨-, -, ⟨ha, rfl⟩ | ⟨request, runtime, ha, hr, rfl⟩⟩ := Sessions.call_ok hs
  · exact .fails ha
  · have hroom : (s.runtime.outstanding.buffer i).count < bufferSize := by
      obtain ⟨_, -, hr⟩ := Section.bind_eq_ok.mp hr
      obtain ⟨b, hb, hr⟩ := Section.bind_eq_ok.mp hr
      obtain ⟨b', hb', -⟩ := Section.bind_eq_ok.mp hr
      obtain ⟨_, hwait, -⟩ := Section.bind_eq_ok.mp hb'
      exact load_eq_ok hb ▸ Nat.lt_of_not_le (of_waitWhile_ok hwait)
    obtain ⟨-, rfl⟩ := Sessions.submit_ok hr
    have hpass : Passes (numbers s.runtime) (.session (.call t i ref a) : Call τ ι) _ :=
      .call (by rw [ha]; rfl) hroom
    simp only [numbers, Sessions.submitted, lanes_update] at hpass ⊢
    exact hpass

omit [DecidableEq ι] h in
theorem passes_direct [DecidableEq ι] {ref : ι} {opData : ℕ}
    (hs : perform s (.direct ref opData) = .ok s') :
    Passes (numbers s.runtime) (.direct ref opData : Call τ ι) (numbers s'.runtime) := by
  obtain ⟨runtime, hr, hs⟩ := Section.bind_eq_ok.mp hs
  cases hs
  have hroom : s.runtime.heQatBuffer.count < bufferSize := by
    obtain ⟨_, -, hr⟩ := Section.bind_eq_ok.mp hr
    obtain ⟨b', hb', -⟩ := Section.bind_eq_ok.mp hr
    obtain ⟨_, hwait, -⟩ := Section.bind_eq_ok.mp hb'
    exact Nat.lt_of_not_le (of_waitWhile_ok hwait)
  obtain ⟨-, rfl⟩ := Barrier.submitDirect_ok hr
  exact .direct hroom

/-- The numbers before a section and after it. -/
theorem passes {a : Call τ ι} (hs : step s a = .ok s') :
    Passes (numbers s.runtime) a (numbers s'.runtime) := by
  obtain ⟨_, hadmits, hs⟩ := Section.bind_eq_ok.mp hs
  have hadmits := not_not.mp (of_waitWhile_ok hadmits)
  cases a with
  | leave => exact passes_leave hadmits hs
  | direct ref opData => exact passes_direct hs
  | session a =>
      cases a with
      | acquire t id => exact passes_acquire h hs
      | call t i ref a => exact passes_call hs
      | background a =>
          cases a with
          | select => exact passes_select h hs
          | extract => exact passes_extract h hs
          | submitList => exact passes_submitList h hadmits hs
          | read maxRequests => exact passes_read h hadmits hs
          | dispatch => exact passes_dispatch hs
      | callback r out =>
          obtain ⟨-, -, request, -, rfl⟩ := Sessions.callback_ok hs
          exact .callback
      | release t i batchSize =>
          obtain ⟨-, -, rfl⟩ := Sessions.enter_ok hs
          exact .release
      | look t i =>
          obtain ⟨-, w, -, -, -, rfl⟩ := Sessions.look_ok hs
          exact .look
      | finish t i =>
          obtain ⟨-, w, r, -, -, -, rfl⟩ := h.finish_ok hs
          have hlanes : (numbers (Sessions.finished s i w r).runtime).lanes
              = (numbers s.runtime).lanes := by
            simp only [numbers, Sessions.finished, Sessions.State.withBuffer, lanes_update]
            exact Function.update_eq_self i _
          have hsame : numbers (Sessions.finished s i w r).runtime = numbers s.runtime :=
            congrArg (fun lanes => { numbers s.runtime with lanes := lanes }) hlanes
          rw [hsame]
          exact .finish
      | giveBack t i => exact passes_giveBack h hs

end

/-! ### Reachable states -/

/-- The scheduler has chosen a buffer with a request, and the processing thread is somewhere in
its list or has none. -/
structure Kept (s : Sessions.State τ ι) : Prop where
  sound : Sound s
  chosen : ∀ i, s.runtime.scheduler = .extract i → (s.runtime.outstanding.buffer i).count ≠ 0
  listed : s.runtime.processingList.count = 0 ∨ s.runtime.processed < s.runtime.processingList.count

theorem Kept.step {s s' : Sessions.State τ ι} (h : Kept s) {a : Call τ ι}
    (hs : step s a = .ok s') : Kept s' := by
  have hpass := passes h.sound hs
  refine ⟨?_, hpass.chosen h.chosen, hpass.listed h.listed⟩
  obtain ⟨_, hadmits, hs⟩ := Section.bind_eq_ok.mp hs
  have hadmits := not_not.mp (of_waitWhile_ok hadmits)
  cases a with
  | session a => exact h.sound.step (admits_planned hadmits) hs
  | leave => exact h.sound.step (a := .background .submitList) trivial hs
  | direct ref opData =>
      obtain ⟨runtime, hr, hs⟩ := Section.bind_eq_ok.mp hs
      cases hs
      exact Barrier.sound_submitDirect h.sound hr opData

theorem step_ok {s s' : Sessions.State τ ι} {a : Call τ ι}
    (h : (monitor τ ι).sys.step s a = some s') : step s a = .ok s' :=
  Section.toOption_eq_some.mp h

theorem kept {s : Sessions.State τ ι} (h : (monitor τ ι).sys.Reachable s) : Kept s := by
  refine h.invariant ?_ fun s a s' hs _ hstep => hs.step (step_ok hstep)
  rintro _ rfl
  exact ⟨Sound.initial, fun i hi => (by cases hi), Or.inl rfl⟩

/-! ### Who waits for what -/

/-- The wait conditions, by the numbers. -/
inductive Waiting (s : Sessions.State τ ι) : Call τ ι → CondVar ι → Prop
  | acquire {t : τ} {id : ℕ} (hfull : bufferCount ≤ (numbers s.runtime).busy) :
      Waiting s (.session (.acquire t id)) .anyFreeBuffer
  | call {t : τ} {i : ℕ} {ref : ι} {a : Resources} (hmem : (t, i) ∈ s.runtime.held)
      (hwalk : s.walk i = none) (ha : (packRequest a).isOk)
      (hnew : ⟨some i, ref⟩ ∉ s.runtime.submitted)
      (hfull : bufferSize ≤ (numbers s.runtime).lanes i) :
      Waiting s (.session (.call t i ref a)) (.anyFreeSlot (some i))
  | select (hat : (numbers s.runtime).scheduler = .select)
      (hzero : (numbers s.runtime).busy = 0) :
      Waiting s (.session (.background .select)) .anyReadyBuffer
  | extract {i : ℕ} (hat : (numbers s.runtime).scheduler = .extract i)
      (hzero : (numbers s.runtime).lanes i = 0) :
      Waiting s (.session (.background .extract)) (.anyMoreData (some i))
  | submitList (hat : (numbers s.runtime).scheduler = .submit)
      (hne : (numbers s.runtime).hand ≠ 0)
      (hfull : bufferSize < (numbers s.runtime).trunk + (numbers s.runtime).hand) :
      Waiting s (.session (.background .submitList)) (.anyFreeSlot none)
  | read {maxRequests : ℕ} (hmax : Throttle.restartThreshold.toNat ≤ maxRequests)
      (hlisted : (numbers s.runtime).listed = 0) (hzero : (numbers s.runtime).trunk = 0) :
      Waiting s (.session (.background (.read maxRequests))) (.anyMoreData none)
  | finish {t : τ} {i : ℕ} {w : Walk (Request ι)} {r : Request ι}
      (hmem : (t, i) ∈ s.runtime.held) (hw : s.walk i = some w) (hr : w.task = some r)
      (hanswer : s.answer r = none) : Waiting s (.session (.finish t i)) (.ready r)
  | direct {ref : ι} {opData : ℕ} (hnew : ⟨none, ref⟩ ∉ s.runtime.submitted)
      (hfull : bufferSize ≤ (numbers s.runtime).trunk) :
      Waiting s (.direct ref opData) (.anyFreeSlot none)

section
variable {s s' : Sessions.State τ ι}

omit [DecidableEq τ] in
theorem awaited_iff (h : Sound s) {i : ℕ} (hi : i < bufferCount) {r : Request ι} :
    awaited s i = some r ↔
      ∃ w, s.walk i = some w ∧ w.task = some r ∧ s.answer r = none := by
  constructor
  · intro ha
    simp only [awaited, Option.bind_eq_bind, Option.bind_eq_some_iff] at ha
    obtain ⟨w, hw, q, hq, request, hrequest, ha⟩ := ha
    obtain ⟨-, -, -, request', hrequest', hover⟩ := h.at_slot hi hw hq
    rw [hrequest] at hrequest'
    cases hrequest'
    split at ha
    · cases ha
    · next hwait =>
        cases ha
        exact ⟨w, hw, hq, by simpa using mt hover.mpr hwait⟩
  · rintro ⟨w, hw, hr, hanswer⟩
    obtain ⟨-, -, -, request, hrequest, hover⟩ := h.at_slot hi hw hr
    have hwait : ¬ request.WaitOver := by
      rw [hover, hanswer]
      simp
    simp [awaited, hw, hr, hrequest, hwait]

theorem waits_iff (h : Kept s) {a : Call τ ι} {k : CondVar ι} :
    waits s a = some k ↔ Waiting s a k := by
  constructor
  · intro hw
    cases a with
    | leave => cases hw
    | direct ref opData =>
        simp only [waits, Option.ite_none_right_eq_some, Option.some.injEq] at hw
        obtain ⟨⟨hnew, hfull⟩, rfl⟩ := hw
        exact .direct hnew hfull
    | session a =>
        cases a with
        | acquire t id =>
            simp only [waits, Option.ite_none_right_eq_some, Option.some.injEq,
              busy_eq h.sound] at hw
            obtain ⟨hfull, rfl⟩ := hw
            exact .acquire hfull
        | call t i ref a =>
            simp only [waits, Option.ite_none_right_eq_some, Option.some.injEq,
              Option.isNone_iff_eq_none] at hw
            obtain ⟨⟨⟨hmem, hwalk⟩, ha, hnew, hfull⟩, rfl⟩ := hw
            exact .call hmem hwalk ha hnew hfull
        | background a =>
            cases a with
            | select =>
                simp only [waits, Option.ite_none_right_eq_some, Option.some.injEq,
                  busy_eq h.sound] at hw
                obtain ⟨⟨hat, hzero⟩, rfl⟩ := hw
                exact .select hat (Nat.le_zero.mp hzero)
            | extract =>
                cases hat : s.runtime.scheduler with
                | select => simp only [waits, hat, reduceCtorEq] at hw
                | submit => simp only [waits, hat, reduceCtorEq] at hw
                | extract i =>
                    simp only [waits, hat, Option.ite_none_right_eq_some,
                      Option.some.injEq] at hw
                    obtain ⟨hzero, rfl⟩ := hw
                    exact .extract hat (Nat.le_zero.mp hzero)
            | submitList =>
                simp only [waits, Option.ite_none_right_eq_some, Option.some.injEq] at hw
                obtain ⟨⟨hat, hne, hfull⟩, rfl⟩ := hw
                exact .submitList hat hne (by simp only [numbers]; omega)
            | read maxRequests =>
                simp only [waits, Option.ite_none_right_eq_some, Option.some.injEq] at hw
                obtain ⟨⟨hmax, hlisted, hzero⟩, rfl⟩ := hw
                exact .read hmax hlisted (Nat.le_zero.mp hzero)
            | dispatch => cases hw
        | callback r out => cases hw
        | release t i batchSize => cases hw
        | look t i => cases hw
        | finish t i =>
            simp only [waits, Option.ite_none_right_eq_some, Option.map_eq_some_iff] at hw
            obtain ⟨hmem, r, hr, rfl⟩ := hw
            obtain ⟨w, hwalk, htask, hanswer⟩ :=
              (awaited_iff h.sound (h.sound.lt_of_held hmem)).mp hr
            exact .finish hmem hwalk htask hanswer
        | giveBack t i => cases hw
  · intro hw
    cases hw with
    | acquire hfull => exact if_pos (busy_eq h.sound ▸ hfull)
    | call hmem hwalk ha hnew hfull =>
        exact if_pos ⟨⟨hmem, by rw [hwalk]; rfl⟩, ha, hnew, hfull⟩
    | select hat hzero => exact if_pos ⟨hat, (busy_eq h.sound).trans hzero |>.le⟩
    | extract hat hzero =>
        have hat : s.runtime.scheduler = _ := hat
        simp only [waits, hat]
        exact if_pos hzero.le
    | submitList hat hne hfull =>
        simp only [numbers] at hfull
        exact if_pos ⟨hat, hne, by omega⟩
    | read hmax hlisted hzero => exact if_pos ⟨hmax, hlisted, hzero.le⟩
    | finish hmem hwalk hr hanswer =>
        have ha := (awaited_iff h.sound (h.sound.lt_of_held hmem)).mpr ⟨_, hwalk, hr, hanswer⟩
        rw [waits, if_pos hmem, ha]
        rfl
    | direct hnew hfull => exact if_pos ⟨hnew, hfull⟩

end

/-! ### Variables on which one thread waits -/

/-- All but two variables. -/
def Single : CondVar ι → Prop
  | .anyFreeBuffer => False
  | .anyFreeSlot none => False
  | _ => True

section
variable {s s' : Sessions.State τ ι}

omit [DecidableEq τ] in
/-- Two threads do not wait for one thing. -/
theorem waiting_unique (h : Kept s) {a b : Call τ ι} {k : CondVar ι} (hk : Single k)
    (ha : Waiting s a k) (hb : Waiting s b k) : a.thread = b.thread := by
  cases ha with
  | acquire _ => cases hk
  | submitList _ _ _ => cases hk
  | direct _ _ => cases hk
  | call hmem _ _ _ _ =>
      cases hb with
      | call hmem' _ _ _ _ =>
          exact congrArg Thread.api (h.sound.traced.owned.holder_unique hmem hmem')
  | select _ _ =>
      cases hb with
      | select _ _ => rfl
  | extract _ _ =>
      cases hb with
      | extract _ _ => rfl
  | read _ _ _ =>
      cases hb with
      | read _ _ _ => rfl
  | @finish t i w r hmem hw hr _ =>
      cases hb with
      | @finish u j w' _ hmem' hw' hr' _ =>
          -- a request belongs to the session on one buffer
          have hvia : ∀ {x : τ} {l : ℕ} {v : Walk (Request ι)}, (x, l) ∈ s.runtime.held →
              s.walk l = some v → v.task = some r → r.via = some l := by
            intro x l v hx hv htask
            have hlt := h.sound.lt_of_held hx
            obtain ⟨-, -, hqueued, -⟩ := h.sound.at_slot hlt hv htask
            exact ((h.sound.session l hlt).submitted r hqueued).1
          have hij := (hvia hmem hw hr).symm.trans (hvia hmem' hw' hr')
          cases hij
          exact congrArg Thread.api (h.sound.traced.owned.holder_unique hmem hmem')

omit [DecidableEq τ] [DecidableEq ι] in
theorem session_thread {a : Sessions.Action τ ι} {t : τ} (h : a.thread = some t) :
    (Call.session a).thread = .api t := by
  cases a with
  | background a => cases h
  | callback r out => cases h
  | _ => cases h; rfl

/-- What becomes of the requests submitted. -/
theorem submitted_cases (h : Kept s) {a : Sessions.Action τ ι}
    (hs : Sessions.step s a = .ok s') :
    s'.runtime.submitted = s.runtime.submitted ∨
      ∃ t i ref b, a = .call t i ref b ∧ (t, i) ∈ s.runtime.held ∧
        s'.runtime.submitted = s.runtime.submitted ++ [⟨some i, ref⟩] := by
  cases a with
  | acquire t id =>
      obtain ⟨runtime, hr, hs⟩ := Section.bind_eq_ok.mp hs
      cases hs
      obtain ⟨id, o, -, rfl⟩ := Sessions.acquire_ok h.sound.traced.owned hr
      exact Or.inl rfl
  | call t i ref b =>
      obtain ⟨hmem, -, ⟨-, rfl⟩ | ⟨request, runtime, -, hr, rfl⟩⟩ := Sessions.call_ok hs
      · exact Or.inl rfl
      · obtain ⟨-, rfl⟩ := Sessions.submit_ok hr
        exact Or.inr ⟨t, i, ref, b, rfl, hmem, rfl⟩
  | background a =>
      obtain ⟨runtime, hr, hs⟩ := Section.bind_eq_ok.mp hs
      cases hs
      exact Or.inl (Sessions.background_behind hr).submitted
  | callback r out =>
      obtain ⟨-, -, request, -, rfl⟩ := Sessions.callback_ok hs
      exact Or.inl rfl
  | release t i batchSize =>
      obtain ⟨-, -, rfl⟩ := Sessions.enter_ok hs
      exact Or.inl rfl
  | look t i =>
      obtain ⟨-, w, -, -, -, rfl⟩ := Sessions.look_ok hs
      exact Or.inl rfl
  | finish t i =>
      obtain ⟨-, w, r, -, -, -, rfl⟩ := h.sound.finish_ok hs
      exact Or.inl rfl
  | giveBack t i =>
      obtain ⟨-, w, o, -, -, -, rfl⟩ := h.sound.giveBack_effect hs
      exact Or.inl rfl

/-- What another thread does leaves the session on a buffer alone. -/
theorem session_elsewhere (h : Kept s) {t : τ} {i : ℕ} (hmem : (t, i) ∈ s.runtime.held)
    {b : Call τ ι} (hb : b.thread ≠ .api t) (hs : step s b = .ok s') :
    (t, i) ∈ s'.runtime.held ∧ s'.walk i = s.walk i ∧
      ∀ ref, ⟨some i, ref⟩ ∈ s'.runtime.submitted → ⟨some i, ref⟩ ∈ s.runtime.submitted := by
  obtain ⟨_, -, hs⟩ := Section.bind_eq_ok.mp hs
  have hsession : ∀ {a : Sessions.Action τ ι}, a.thread ≠ some t →
      Sessions.step s a = .ok s' → (t, i) ∈ s'.runtime.held ∧ s'.walk i = s.walk i ∧
        ∀ ref, ⟨some i, ref⟩ ∈ s'.runtime.submitted → ⟨some i, ref⟩ ∈ s.runtime.submitted := by
    intro a ha hs
    obtain ⟨hheld, -, hwalk⟩ := h.sound.elsewhere hmem ha hs
    refine ⟨hheld, hwalk, fun ref hr => ?_⟩
    rcases submitted_cases h hs with hsame | ⟨u, j, q, c, rfl, hu, hmore⟩
    · rwa [hsame] at hr
    · rw [hmore] at hr
      refine (List.mem_append.mp hr).resolve_right fun hc => ha ?_
      -- the request is one of the other session
      cases List.mem_singleton.mp hc
      exact congrArg some (h.sound.traced.owned.holder_unique hu hmem)
  cases b with
  | session a => exact hsession (fun hc => hb (session_thread hc)) hs
  | leave => exact hsession (a := .background .submitList) (by simp [Sessions.Action.thread]) hs
  | direct ref opData =>
      obtain ⟨runtime, hr, hs⟩ := Section.bind_eq_ok.mp hs
      cases hs
      obtain ⟨-, rfl⟩ := Barrier.submitDirect_ok hr
      exact ⟨hmem, rfl, fun q hq => by simpa using hq⟩

/-- Only its callback answers a request. -/
theorem answer_elsewhere (h : Kept s) {b : Call τ ι} (hs : step s b = .ok s') {r : Request ι}
    (hb : ∀ out, b ≠ .session (.callback r out)) : s'.answer r = s.answer r := by
  obtain ⟨_, -, hs⟩ := Section.bind_eq_ok.mp hs
  cases b with
  | leave =>
      obtain ⟨runtime, hr, hs⟩ := Section.bind_eq_ok.mp hs
      cases hs
      rfl
  | direct ref opData =>
      obtain ⟨runtime, hr, hs⟩ := Section.bind_eq_ok.mp hs
      cases hs
      rfl
  | session b =>
      cases b with
      | acquire t id =>
          obtain ⟨runtime, hr, hs⟩ := Section.bind_eq_ok.mp hs
          cases hs
          rfl
      | call t i ref a =>
          obtain ⟨-, -, ⟨-, rfl⟩ | ⟨request, runtime, -, hr, rfl⟩⟩ := Sessions.call_ok hs
          · rfl
          · rfl
      | background a =>
          obtain ⟨runtime, hr, hs⟩ := Section.bind_eq_ok.mp hs
          cases hs
          rfl
      | callback q out =>
          obtain ⟨-, -, request, -, rfl⟩ := Sessions.callback_ok hs
          have hne : r ≠ q := fun hc => hb out (by rw [hc])
          exact Function.update_of_ne hne _ _
      | release t i batchSize =>
          obtain ⟨-, -, rfl⟩ := Sessions.enter_ok hs
          rfl
      | look t i =>
          obtain ⟨-, w, -, -, -, rfl⟩ := Sessions.look_ok hs
          rfl
      | finish t i =>
          obtain ⟨-, w, q, -, -, -, rfl⟩ := h.sound.finish_ok hs
          rfl
      | giveBack t i =>
          obtain ⟨-, w, o, -, -, -, rfl⟩ := h.sound.giveBack_effect hs
          rfl

omit [DecidableEq τ] [DecidableEq ι] in
/-- Requests come into the ring with a signal. -/
theorem trunk_cases {n : Numbers} {a : Call τ ι} (hpass : Passes (numbers s.runtime) a n) :
    n.trunk ≤ (numbers s.runtime).trunk ∨ signals s a = some (.anyMoreData none) := by
  cases hpass with
  | submitList _ _ _ => exact Or.inr rfl
  | direct _ => exact Or.inr rfl
  | read _ _ _ => exact Or.inl (Nat.sub_le _ _)
  | _ => exact Or.inl le_rfl

/-- What ends the wait of a thread is signalled. -/
theorem waiting_step (h : Kept s) {a b : Call τ ι} {k : CondVar ι} (hs : step s b = .ok s')
    (hne : b.thread ≠ a.thread) (hk : Single k) (hw : Waiting s a k) :
    Waiting s' a k ∨ signals s b = some k := by
  have hpass := passes h.sound hs
  cases hw with
  | acquire _ => cases hk
  | submitList _ _ _ => cases hk
  | direct _ _ => cases hk
  | extract hat hzero => exact absurd hzero (h.chosen _ hat)
  | @call t i ref a hmem hwalk ha hnew hfull =>
      obtain ⟨hheld, hwalk', hsub⟩ := session_elsewhere h hmem hne hs
      rcases hpass.lanes_cases i with hle | ⟨rfl, hat⟩
      · exact Or.inl (.call hheld (hwalk'.trans hwalk) ha (mt (hsub ref) hnew) (hfull.trans hle))
      · right
        have hat : s.runtime.scheduler = .extract i := hat
        simp only [signals, hat]
  | select hat hzero =>
      rcases hpass.busy_cases with hle | ⟨t, id, rfl⟩
      · exact Or.inl (.select ((hpass.scheduler_eq hne).1.trans hat) (by omega))
      · exact Or.inr rfl
  | read hmax hlisted hzero =>
      rcases trunk_cases hpass with hle | hsignal
      · exact Or.inl (.read hmax ((hpass.listed_eq hne).1.trans hlisted) (by omega))
      · exact Or.inr hsignal
  | @finish t i w r hmem hwalk hr hanswer =>
      by_cases hb : ∃ out, b = .session (.callback r out)
      · obtain ⟨out, rfl⟩ := hb
        exact Or.inr rfl
      · obtain ⟨hheld, hwalk', -⟩ := session_elsewhere h hmem hne hs
        have hsame := answer_elsewhere h hs (not_exists.mp hb)
        exact Or.inl (.finish hheld (hwalk'.trans hwalk) hr (hsame.trans hanswer))

end

/-! ### Variables on which threads compete -/

def isAcquire : Call τ ι → Bool
  | .session (.acquire _ _) => true
  | _ => false

/-- The calls that need room in the internal ring. -/
def needsSlot : Call τ ι → Bool
  | .session (.background .submitList) => true
  | .direct _ _ => true
  | _ => false

section
variable {s s' : Sessions.State τ ι} {a : Call τ ι}

omit [DecidableEq τ] in
/-- A buffer that is given back is signalled. -/
theorem free_step {n : Numbers} (hpass : Passes (numbers s.runtime) a n) :
    bufferCount - n.busy + (if isAcquire a then 1 else 0)
      ≤ bufferCount - (numbers s.runtime).busy
        + (if signals s a = some .anyFreeBuffer then 1 else 0) := by
  cases hpass with
  | acquire hroom =>
      simp only [isAcquire, if_true]
      omega
  | giveBack hne =>
      simp only [isAcquire, signals, if_true, Bool.false_eq_true, if_false]
      omega
  | _ => simp [isAcquire]

omit [DecidableEq τ] in
/-- So is the ring when it has been emptied. -/
theorem slot_step {n : Numbers} (hpass : Passes (numbers s.runtime) a n) (hn : n.trunk = 0) :
    1 + (if needsSlot a then 1 else 0) ≤ (if (numbers s.runtime).trunk = 0 then 1 else 0)
      + (if signals s a = some (.anyFreeSlot none) then 1 else 0) := by
  cases hpass with
  | read _ _ _ => simp [needsSlot, signals]
  | submitList _ hne _ =>
      simp only at hn
      omega
  | direct _ => cases hn
  | _ =>
      have hempty : (numbers s.runtime).trunk = 0 := hn
      simp [needsSlot, hempty]

end

/-! ### The threads of the runtime -/

/-- The calls of the scheduler, the processing thread and the direct submissions. -/
def OfRuntime (a : Call τ ι) : Prop :=
  match a.thread with
  | .api _ => False
  | .device _ => False
  | _ => True

/-- Where a thread is when it is at one of their sections. -/
def Placed (s : Sessions.State τ ι) : Call τ ι → Prop
  | .session (.background .select) => s.runtime.scheduler = .select
  | .session (.background .extract) => ∃ i, s.runtime.scheduler = .extract i
  | .session (.background .submitList) =>
      s.runtime.scheduler = .submit ∧ s.runtime.schedulerList.count ≠ 0
  | .session (.background (.read maxRequests)) =>
      s.runtime.processingList.count = 0 ∧ Throttle.restartThreshold.toNat ≤ maxRequests
  | .session (.background .dispatch) => s.runtime.processingList.count ≠ 0
  | .leave => s.runtime.scheduler = .submit ∧ s.runtime.schedulerList.count = 0
  | .direct ref _ => ⟨none, ref⟩ ∉ s.runtime.submitted
  | _ => True

section
variable {s s' : Sessions.State τ ι} {a : Call τ ι}

theorem placed_of_at (h : Kept s) (hat : (monitor τ ι).At s a) : Placed s a := by
  rcases hat with hstep | hwaits
  · obtain ⟨s', hs⟩ := Option.isSome_iff_exists.mp hstep
    have hs := step_ok hs
    have hpass := passes h.sound hs
    generalize numbers s'.runtime = n at hpass
    cases hpass with
    | select hat _ _ _ => exact hat
    | extract hat _ _ => exact ⟨_, hat⟩
    | submitList hat hne _ => exact ⟨hat, hne⟩
    | read hmax hlisted _ => exact ⟨hlisted, hmax⟩
    | last hlast => exact fun hc => absurd (hlast.trans hc) (Nat.succ_ne_zero _)
    | dispatch hmore =>
        intro hc
        simp only [numbers] at hmore
        omega
    | leave hat hhand => exact ⟨hat, hhand⟩
    | direct _ =>
        obtain ⟨_, -, hs⟩ := Section.bind_eq_ok.mp hs
        obtain ⟨runtime, hr, -⟩ := Section.bind_eq_ok.mp hs
        exact (Barrier.submitDirect_ok hr).1
    | _ => trivial
  · obtain ⟨k, hk⟩ := Option.isSome_iff_exists.mp hwaits
    cases (waits_iff h).mp hk with
    | select hat _ => exact hat
    | extract hat _ => exact ⟨_, hat⟩
    | submitList hat hne _ => exact ⟨hat, hne⟩
    | read hmax hlisted _ => exact ⟨hlisted, hmax⟩
    | direct hnew _ => exact hnew
    | _ => trivial

theorem placed_step (h : Kept s) {b : Call τ ι} (hs : step s b = .ok s')
    (hne : b.thread ≠ a.thread) (ha : Placed s a) : Placed s' a := by
  have hpass := passes h.sound hs
  cases a with
  | leave =>
      obtain ⟨hat, hhand⟩ := hpass.scheduler_eq hne
      exact ⟨hat.trans ha.1, hhand.trans ha.2⟩
  | direct ref opData =>
      obtain ⟨_, -, hs⟩ := Section.bind_eq_ok.mp hs
      cases b with
      | leave =>
          obtain ⟨runtime, hr, hs⟩ := Section.bind_eq_ok.mp hs
          cases hs
          exact fun hc => ha ((Sessions.background_behind (a := .submitList) hr).submitted ▸ hc)
      | direct ref' opData' =>
          obtain ⟨runtime, hr, hs⟩ := Section.bind_eq_ok.mp hs
          cases hs
          obtain ⟨-, rfl⟩ := Barrier.submitDirect_ok hr
          intro hc
          rcases List.mem_append.mp hc with hc | hc
          · exact ha hc
          · cases List.mem_singleton.mp hc
            exact hne rfl
      | session b =>
          rcases submitted_cases h hs with hsame | ⟨t, i, q, c, rfl, -, hmore⟩
          · exact fun hc => ha (hsame ▸ hc)
          · intro hc
            rw [hmore] at hc
            rcases List.mem_append.mp hc with hc | hc
            · exact ha hc
            · cases List.mem_singleton.mp hc
  | session a =>
      cases a with
      | background a =>
          cases a with
          | select => exact (hpass.scheduler_eq hne).1.trans ha
          | extract =>
              obtain ⟨i, hi⟩ := ha
              exact ⟨i, (hpass.scheduler_eq hne).1.trans hi⟩
          | submitList =>
              obtain ⟨hat, hhand⟩ := hpass.scheduler_eq hne
              exact ⟨hat.trans ha.1, fun hc => ha.2 (hhand.symm.trans hc)⟩
          | read maxRequests => exact ⟨(hpass.listed_eq hne).1.trans ha.1, ha.2⟩
          | dispatch => exact fun hc => ha ((hpass.listed_eq hne).1.symm.trans hc)
      | _ => trivial

/-- Every thread is where it has come to. -/
theorem placed {s : State τ ι} (h : (monitor τ ι).system.Reachable s) :
    ∀ a ∈ s.calls, Placed s.base a :=
  Monitor.calls_at (M := monitor τ ι) (fun _ _ h hat => placed_of_at (kept h) hat)
    (fun _ _ _ _ h hs hne ha => placed_step (kept h) (step_ok hs) hne ha) h

/-- The step of a call that is made. -/
theorem step_run (hadmits : Admits s a) (hs : perform s a = .ok s') :
    (monitor τ ι).sys.step s a = some s' := by
  refine Section.toOption_eq_some.mpr ?_
  rw [step, waitWhile_ok (not_not.mpr hadmits)]
  exact hs

theorem background_run {b : Sessions.Background} (hadmits : Admits s (.session (.background b)))
    (hr : ∃ runtime, Runtime.step s.runtime b.action = .ok runtime) :
    ∃ s', (monitor τ ι).sys.step s (.session (.background b)) = some s' := by
  obtain ⟨runtime, hr⟩ := hr
  exact ⟨_, step_run hadmits (Sessions.background_run hr)⟩

theorem select_run (h : Kept s) (hat : s.runtime.scheduler = .select)
    (hbusy : s.runtime.held.length ≠ 0) :
    ∃ s', (monitor τ ι).sys.step s (.session (.background .select)) = some s' := by
  have hpos : ¬ s.runtime.outstanding.busyCount ≤ 0 := by
    rw [h.sound.traced.owned.busy]
    omega
  obtain ⟨found, hfound⟩ : ∃ found, pullSelect s.runtime.outstanding = .ok found :=
    ⟨_, by rw [pullSelect, waitWhile_ok hpos]; rfl⟩
  exact background_run trivial ⟨_, by
    rw [Sessions.Background.action, Runtime.step, waitWhile_ok (not_not.mpr hat),
      Section.bind_ok, hfound]
    rfl⟩

theorem extract_run (h : Kept s) {i : ℕ} (hat : s.runtime.scheduler = .extract i) :
    ∃ s', (monitor τ ι).sys.step s (.session (.background .extract)) = some s' := by
  obtain ⟨t, -, hR⟩ := h.sound.traced
  have hok := hR.scheduler
  rw [hat] at hok
  obtain ⟨l, b, hrun, -, -⟩ := pullExtract_run (hR.lanes i hok.2)
    (Nat.pos_of_ne_zero (h.chosen i hat)) s.runtime.schedulerList bufferSize
  exact background_run trivial ⟨_, by
    simp only [Sessions.Background.action, Runtime.step, hat, Runtime.extractFrom]
    rw [load_ok hok.2, Section.bind_ok, hrun]
    rfl⟩

theorem submitList_run (h : Kept s) (hat : s.runtime.scheduler = .submit)
    (hne : s.runtime.schedulerList.count ≠ 0)
    (hroom : s.runtime.heQatBuffer.count + s.runtime.schedulerList.count ≤ bufferSize) :
    ∃ s', (monitor τ ι).sys.step s (.session (.background .submitList)) = some s' := by
  obtain ⟨t, -, hR⟩ := h.sound.traced
  obtain ⟨b, l, hrun, -, -⟩ := submitRequestList_run hR.trunk hR.hand hne (by omega)
  exact background_run hne ⟨_, by
    rw [Sessions.Background.action, Runtime.step, waitWhile_ok (not_not.mpr hat),
      Section.bind_ok, hrun]
    rfl⟩

theorem leave_run (hat : s.runtime.scheduler = .submit)
    (hzero : s.runtime.schedulerList.count = 0) :
    ∃ s', (monitor τ ι).sys.step s .leave = some s' := by
  obtain ⟨runtime, hr⟩ : ∃ runtime, Runtime.step s.runtime .submitList = .ok runtime :=
    ⟨_, by rw [Runtime.step, waitWhile_ok (not_not.mpr hat), Section.bind_ok,
      submitRequestList, if_pos hzero]; rfl⟩
  exact ⟨_, step_run hzero (Sessions.background_run (a := .submitList) hr)⟩

theorem read_run (h : Kept s) {maxRequests : ℕ}
    (hmax : Throttle.restartThreshold.toNat ≤ maxRequests)
    (hlisted : s.runtime.processingList.count = 0) (hne : s.runtime.heQatBuffer.count ≠ 0) :
    ∃ s', (monitor τ ι).sys.step s (.session (.background (.read maxRequests))) = some s' := by
  obtain ⟨t, -, hR⟩ := h.sound.traced
  obtain ⟨l, b, hrun, -, -⟩ := readRequestList_run hR.trunk (Nat.pos_of_ne_zero hne)
    s.runtime.processingList maxRequests
  exact background_run hmax ⟨_, by
    rw [Sessions.Background.action, Runtime.step, waitWhile_ok (not_not.mpr hlisted),
      Section.bind_ok, hrun]
    rfl⟩

theorem dispatch_run (h : Kept s) (hne : s.runtime.processingList.count ≠ 0) :
    ∃ s', (monitor τ ι).sys.step s (.session (.background .dispatch)) = some s' := by
  obtain ⟨t, -, hR⟩ := h.sound.traced
  have hcount := hR.batch.count_eq
  have hsize := hR.batch.le_size
  have hmore := h.listed.resolve_left hne
  have hlen : 0 < t.batch.length := by omega
  have hlt : s.runtime.processed < bufferSize := by omega
  have hfirst : s.runtime.processingList.request s.runtime.processed = some t.batch[0] :=
    hR.batch.get 0 hlen
  have hstep : Runtime.step s.runtime .dispatch = Runtime.dispatchNext s.runtime := by
    rw [Runtime.step, waitWhile_ok (Nat.not_le_of_lt hmore), Section.bind_ok]
  refine background_run trivial ?_
  rw [Sessions.Background.action, hstep, Runtime.dispatchNext, load_ok hlt, Section.bind_ok,
    hfirst]
  simp only [store_ok hlt, Section.bind_ok]
  split
  · exact ⟨_, rfl⟩
  · exact ⟨_, rfl⟩

theorem direct_run (h : Kept s) {ref : ι} (hnew : ⟨none, ref⟩ ∉ s.runtime.submitted)
    (hroom : s.runtime.heQatBuffer.count < bufferSize) (opData : ℕ) :
    ∃ s', (monitor τ ι).sys.step s (.direct ref opData) = some s' := by
  obtain ⟨t, -, hR⟩ := h.sound.traced
  have hrun := submitRequest_run hR.trunk hroom (⟨none, ref⟩ : Request ι)
  obtain ⟨runtime, hr⟩ : ∃ runtime, Runtime.step s.runtime (.submitDirect ref) = .ok runtime :=
    ⟨_, by rw [Runtime.step, waitWhile_ok hnew, Section.bind_ok, hrun]; rfl⟩
  have hperform : ∃ s', perform s (.direct ref opData) = .ok s' :=
    ⟨_, by rw [perform, hr]; rfl⟩
  obtain ⟨s', hs'⟩ := hperform
  exact ⟨s', step_run trivial hs'⟩

end

/-! ### No lost wake-up -/

/-- Where the sleepers stand. -/
structure Awaited (s : State τ ι) : Prop where
  /-- a thread that sleeps alone on its variable would go back to sleep -/
  single : ∀ a k, (a, k) ∈ s.asleep → Single k → waits s.base a = some k
  /-- of those that want a buffer, as many are awake as there are free ones -/
  buffers : ∀ a, (a, CondVar.anyFreeBuffer) ∈ s.asleep →
    bufferCount - s.base.runtime.outstanding.busyCount ≤ s.inside.countP isAcquire
  /-- beside an empty ring somebody is awake who can fill it -/
  slots : ∀ a, (a, CondVar.anyFreeSlot none) ∈ s.asleep → s.base.runtime.heQatBuffer.count = 0 →
    ∃ b ∈ s.inside, needsSlot b ∧ ((monitor τ ι).sys.step s.base b).isSome

/-- Those that need room in the ring have it when the ring is empty. -/
theorem fill_run {s : Sessions.State τ ι} (h : Kept s) {a : Call τ ι} (hslot : needsSlot a)
    (ha : Placed s a) (hempty : s.runtime.heQatBuffer.count = 0) :
    ∃ s', (monitor τ ι).sys.step s a = some s' := by
  cases a with
  | leave => cases hslot
  | direct ref opData =>
      exact direct_run h ha (by rw [hempty]; exact Nat.zero_lt_succ 1023) opData
  | session a =>
      cases a with
      | background a =>
          cases a with
          | submitList =>
              obtain ⟨t, -, hR⟩ := h.sound.traced
              have hlen := hR.hand.le_size
              have hcount := hR.hand.count_eq
              exact submitList_run h ha.1 ha.2 (by omega)
          | _ => cases hslot
      | _ => cases hslot

/--
**No wake-up is lost.**

Whatever calls the API threads make, whenever the device answers, whichever sleepers the
signals choose and however often threads wake for no reason: a thread that is asleep has to be.
The scheduler, the processing thread, a submission to an outstanding buffer and a release sleep
only as long as their condition holds.  When threads wait for a buffer, at least as many others
that want one are awake as buffers are free; and when somebody waits for room in the empty
internal ring, one that needs room is awake and can take it.
-/
theorem sleepers_awaited {s : State τ ι} (h : (monitor τ ι).system.Reachable s) : Awaited s where
  single a k hmem hk := Monitor.asleep_waits (M := monitor τ ι) Single
    (fun s a b k hreach hk ha hb => waiting_unique (kept hreach) hk
      ((waits_iff (kept hreach)).mp ha) ((waits_iff (kept hreach)).mp hb))
    (fun s b s' a k hreach hs hne hk ha => by
      have hsound := kept hreach
      refine (waiting_step hsound (step_ok hs) hne hk ((waits_iff hsound).mp ha)).imp_left ?_
      exact (waits_iff (hsound.step (step_ok hs))).mpr)
    h hk hmem
  buffers a hmem := by
    have hkept := kept (Monitor.reachable_base h)
    rw [busy_eq hkept.sound]
    refine Monitor.awake_of_asleep (M := monitor τ ι)
      (fun s => bufferCount - (numbers s.runtime).busy) isAcquire ?_ ?_ ?_ h hmem
    · intro s a l hreach hw
      cases (waits_iff (kept hreach)).mp hw <;> simp [isAcquire]
    · intro s a hreach hw
      cases (waits_iff (kept hreach)).mp hw with
      | acquire hfull => exact Nat.sub_eq_zero_of_le hfull
    · intro s b s' hreach hs
      exact Or.inr (free_step (passes (kept hreach).sound (step_ok hs)))
  slots a hmem hempty := by
    have hkept := kept (Monitor.reachable_base h)
    have hawake := Monitor.awake_of_asleep (M := monitor τ ι)
      (fun s => if (numbers s.runtime).trunk = 0 then 1 else 0) needsSlot ?_ ?_ ?_ h hmem
    · rw [if_pos (show (numbers s.base.runtime).trunk = 0 from hempty)] at hawake
      obtain ⟨b, hb, hslot⟩ := List.countP_pos_iff.mp hawake
      have hplaced := placed h b (Monitor.mem_calls_of_inside hb)
      obtain ⟨s', hs'⟩ := fill_run hkept hslot hplaced hempty
      exact ⟨b, hb, hslot, by rw [hs']; rfl⟩
    · intro s a l hreach hw
      cases (waits_iff (kept hreach)).mp hw <;> simp [needsSlot]
    · intro s a hreach hw
      obtain ⟨t, -, hR⟩ := (kept hreach).sound.traced
      have hlen := hR.hand.le_size
      have hcount := hR.hand.count_eq
      refine if_neg ?_
      cases (waits_iff (kept hreach)).mp hw with
      | submitList _ _ hfull =>
          simp only [numbers] at hfull ⊢
          omega
      | direct _ hfull =>
          intro hc
          rw [hc] at hfull
          exact absurd hfull (Nat.not_succ_le_zero 1023)
    · intro s b s' hreach hs
      have hpass := passes (kept hreach).sound (step_ok hs)
      by_cases hzero : (numbers s'.runtime).trunk = 0
      · right
        simp only [if_pos hzero]
        exact slot_step hpass hzero
      · exact Or.inl (if_neg hzero)

theorem initial_init : (monitor τ ι).system.init State.initial := ⟨rfl, rfl, rfl⟩

/-- A section that is passed at once, and wakes nobody. -/
def through (a : Call ℕ ℕ) : List (Monitor.Action (Call ℕ ℕ)) := [.enter a, .run a none]

/-- A thread that goes to sleep. -/
def asleepAt (a : Call ℕ ℕ) : List (Monitor.Action (Call ℕ ℕ)) := [.enter a, .wait a]

/-- Eight threads take all the buffers and two more go to sleep, and one buffer is given back. -/
def oneGivenBack : List (Monitor.Action (Call ℕ ℕ)) :=
  asleepAt (.session (.background (.read 48)))
    ++ (List.range 8).flatMap (fun t => through (.session (.acquire t 0)))
    ++ asleepAt (.session (.acquire 8 0)) ++ asleepAt (.session (.acquire 9 0))
    ++ through (.session (.release 3 3 0))
    ++ [.enter (.session (.giveBack 3 3)),
      .run (.session (.giveBack 3 3)) (some (.session (.acquire 8 0)))]

theorem sleepers_awaited_one : ∃ s : State ℕ ℕ,
    (s.asleep, s.inside) = ([(.session (.acquire 9 0), .anyFreeBuffer),
        (.session (.background (.read 48)), .anyMoreData none)], [.session (.acquire 8 0)]) ∧
      Awaited s := by
  have hrun : ((monitor ℕ ℕ).system.run State.initial oneGivenBack).map
      (fun s => (s.asleep, s.inside)) = some ([(.session (.acquire 9 0), .anyFreeBuffer),
        (.session (.background (.read 48)), .anyMoreData none)], [.session (.acquire 8 0)]) := by
    decide +kernel
  obtain ⟨s, hs, hx⟩ := (monitor ℕ ℕ).system.reachable_of_map_run initial_init hrun
  exact ⟨s, hx, sleepers_awaited hs⟩

end Ipcl.HeQat.Wakeups
