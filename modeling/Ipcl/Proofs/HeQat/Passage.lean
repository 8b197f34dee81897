/-
A request goes through an idle runtime.

What the other proofs say of the runtime is that nothing goes wrong; here it is shown that
something happens.  When every queue is empty, a request that is submitted passes through
all of them without a wait: the scheduler chooses its buffer, for no other holds a request,
pulls it and puts it into the ring, the processing thread reads it and hands it over, and
then every queue is empty again.

`Loads` keeps the numbers that decide which section can run.
-/
import Ipcl.Proofs.HeQat.Sessions

namespace Ipcl.HeQat

namespace Sessions

variable {τ ι : Type} [DecidableEq τ] [DecidableEq ι]

/-- Where the scheduler is, and how many requests each queue holds. -/
structure Loads (s : Runtime.State τ ι) (at_ : SchedulerAt) (hand trunk batch : ℕ)
    (lanes : ℕ → ℕ) : Prop where
  scheduler : s.scheduler = at_
  hand : s.schedulerList.count = hand
  trunk : s.heQatBuffer.count = trunk
  batch : s.processingList.count = batch
  processed : s.processed = 0
  lanes : ∀ i < bufferCount, (s.outstanding.buffer i).count = lanes i

/-- Every queue is empty. -/
def Calm (s : Runtime.State τ ι) : Prop := Loads s .select 0 0 0 fun _ => 0

omit [DecidableEq τ] [DecidableEq ι] in
/-- What is in the slots of a buffer makes no difference. -/
theorem Calm.withBuffer {s : State τ ι} (h : Calm s.runtime) {i : ℕ}
    {b : RequestBuffer (Request ι)} (hb : b.count = (s.runtime.outstanding.buffer i).count) :
    Calm (s.withBuffer i b).runtime := by
  refine { h with lanes := fun j hj => ?_ }
  show (Function.update s.runtime.outstanding.buffer i b j).count = 0
  by_cases hji : j = i
  · subst hji
    rw [Function.update_self, hb]
    exact h.lanes j hj
  · rw [Function.update_of_ne hji]
    exact h.lanes j hj

variable {s : Runtime.State τ ι} {t : τ} {i : ℕ}

theorem submit_run (h : Traced s) (hcalm : Calm s) (hmem : (t, i) ∈ s.held) {ref : ι}
    (hnew : ⟨some i, ref⟩ ∉ s.submitted) :
    ∃ s', Runtime.step s (.submit t i ref) = .ok s' ∧
      Loads s' .select 0 0 0 (Function.update (fun _ => 0) i 1) := by
  obtain ⟨q, -, hR⟩ := h
  have hlt := hR.owned.lt _ hmem
  have hempty := hcalm.lanes i hlt
  have hroom : (s.outstanding.buffer i).count < bufferSize := by
    rw [hempty]
    exact Nat.zero_lt_succ 1023
  have hrun := submitRequest_run (hR.lanes i hlt) hroom ⟨some i, ref⟩
  have hwait : ¬ ((t, i) ∉ s.held ∨ ⟨some i, ref⟩ ∈ s.submitted) := by
    push Not
    exact ⟨hmem, hnew⟩
  obtain ⟨b', hb', hcount⟩ : ∃ b', submitRequest (s.outstanding.buffer i) ⟨some i, ref⟩ = .ok b' ∧
      b'.count = 1 := ⟨_, hrun, by rw [hempty]⟩
  refine ⟨{ s with
    outstanding := { s.outstanding with
      buffer := Function.update s.outstanding.buffer i b' }
    submitted := s.submitted ++ [⟨some i, ref⟩] }, ?_, { hcalm with lanes := fun j hj => ?_ }⟩
  · rw [Runtime.step, waitWhile_ok hwait, Section.bind_ok, Runtime.submitTo, load_ok hlt,
      Section.bind_ok, hb']
    rfl
  show (Function.update s.outstanding.buffer i b' j).count = _
  by_cases hji : j = i
  · subst hji
    rw [Function.update_self, Function.update_self, hcount]
  · rw [Function.update_of_ne hji, Function.update_of_ne hji]
    exact hcalm.lanes j hj

theorem select_run (h : Traced s) (hmem : (t, i) ∈ s.held)
    (hloads : Loads s .select 0 0 0 (Function.update (fun _ => 0) i 1)) :
    ∃ s', Runtime.step s .select = .ok s' ∧
      Loads s' (.extract i) 0 0 0 (Function.update (fun _ => 0) i 1) := by
  have howned := h.owned
  have hlt := howned.lt _ hmem
  have hbusy : ¬ s.outstanding.busyCount ≤ 0 := by
    rw [howned.busy]
    have hpos := List.length_pos_of_mem hmem
    omega
  -- the buffer is ready, and the only one with a request
  have hready : s.outstanding.readyBuffer i = 1 := by
    rw [howned.ready i hlt, if_pos (List.mem_map_of_mem hmem)]
  have hfind : (List.range bufferCount).find? (fun index =>
      s.outstanding.readyBuffer index ≠ 0 ∧ (s.outstanding.buffer index).count ≠ 0) = some i := by
    refine List.find?_range_eq_some.mpr ⟨?_, List.mem_range.mpr hlt, fun j hj => ?_⟩
    · rw [hready, hloads.lanes i hlt, Function.update_self]
      decide
    · rw [hloads.lanes j (by omega), Function.update_of_ne (by omega)]
      simp
  have hpull : pullSelect s.outstanding = .ok (some i) := by
    rw [pullSelect, waitWhile_ok hbusy, Section.bind_ok, hfind]
    rfl
  refine ⟨{ s with
    schedulerList := { s.schedulerList with count := 0 }
    scheduler := .extract i }, ?_, { hloads with scheduler := rfl, hand := rfl }⟩
  rw [Runtime.step, waitWhile_ok (not_not.mpr hloads.scheduler), Section.bind_ok, hpull]
  rfl

theorem extract_run (h : Traced s) (hlt : i < bufferCount)
    (hloads : Loads s (.extract i) 0 0 0 (Function.update (fun _ => 0) i 1)) :
    ∃ s', Runtime.step s .extract = .ok s' ∧ Loads s' .submit 1 0 0 fun _ => 0 := by
  obtain ⟨q, -, hR⟩ := h
  have hone : (s.outstanding.buffer i).count = 1 := by
    rw [hloads.lanes i hlt, Function.update_self]
  have hlen : (q.lanes i).length = 1 := (hR.lanes i hlt).count_eq.symm.trans hone
  obtain ⟨l', b', hrun, hl, hb⟩ := pullExtract_run (hR.lanes i hlt) (by omega) s.schedulerList
    bufferSize
  have hmin : min 1 bufferSize = 1 := rfl
  have hstep : Runtime.step s .extract = Runtime.extractFrom s i := by
    simp only [Runtime.step, hloads.scheduler]
  refine ⟨{ s with
    outstanding := { s.outstanding with
      buffer := Function.update s.outstanding.buffer i b' }
    schedulerList := l'
    scheduler := .submit }, ?_,
    { hloads with scheduler := rfl, hand := ?_, lanes := fun j hj => ?_ }⟩
  · rw [hstep, Runtime.extractFrom, load_ok hlt, Section.bind_ok, hrun]
    rfl
  · show l'.count = 1
    rw [hl.count_eq, List.length_take, hlen, hmin]
    rfl
  · show (Function.update s.outstanding.buffer i b' j).count = 0
    by_cases hji : j = i
    · subst hji
      rw [Function.update_self, hb.count_eq, List.length_drop, hlen]
      rfl
    · rw [Function.update_of_ne hji, hloads.lanes j hj, Function.update_of_ne hji]

theorem submitList_run (h : Traced s) (hloads : Loads s .submit 1 0 0 fun _ => 0) :
    ∃ s', Runtime.step s .submitList = .ok s' ∧ Loads s' .select 0 1 0 fun _ => 0 := by
  obtain ⟨q, -, hR⟩ := h
  have hhand := hloads.hand
  have htrunk := hloads.trunk
  have hsize : bufferSize = 1024 := rfl
  have hlen : q.hand.length = 1 := hR.hand.count_eq.symm.trans hhand
  have hempty : q.trunk.length = 0 := hR.trunk.count_eq.symm.trans htrunk
  obtain ⟨b', l', hrun, hb, hl⟩ := submitRequestList_run hR.trunk hR.hand (by omega) (by omega)
  refine ⟨{ s with heQatBuffer := b', schedulerList := l', scheduler := .select }, ?_,
    { hloads with scheduler := rfl, hand := ?_, trunk := ?_ }⟩
  · rw [Runtime.step, waitWhile_ok (not_not.mpr hloads.scheduler), Section.bind_ok, hrun]
    rfl
  · exact hl.count_eq
  · show b'.count = 1
    rw [hb.count_eq, List.length_append, hempty, hlen]

theorem read_run (h : Traced s) (hloads : Loads s .select 0 1 0 fun _ => 0) :
    ∃ s', Runtime.step s (.read 1) = .ok s' ∧ Loads s' .select 0 0 1 fun _ => 0 := by
  obtain ⟨q, -, hR⟩ := h
  have htrunk := hloads.trunk
  have hlen : q.trunk.length = 1 := hR.trunk.count_eq.symm.trans htrunk
  obtain ⟨l', b', hrun, hl, hb⟩ := readRequestList_run hR.trunk (by omega) s.processingList 1
  refine ⟨{ s with processingList := l', heQatBuffer := b', processed := 0 }, ?_,
    { hloads with trunk := ?_, batch := ?_, processed := rfl }⟩
  · rw [Runtime.step, waitWhile_ok (not_not.mpr hloads.batch), Section.bind_ok, hrun]
    rfl
  · show b'.count = 0
    rw [hb.count_eq, List.length_drop, hlen]
    rfl
  · show l'.count = 1
    rw [hl.count_eq, List.length_take, hlen]
    rfl

theorem dispatch_run (h : Traced s) (hloads : Loads s .select 0 0 1 fun _ => 0) :
    ∃ s', Runtime.step s .dispatch = .ok s' ∧ Calm s' := by
  obtain ⟨q, -, hR⟩ := h
  have hbatch := hloads.batch
  have hprocessed := hloads.processed
  have hlen : q.batch.length = 1 := by
    have hcount := hR.batch.count_eq
    omega
  obtain ⟨r, hr⟩ := List.length_eq_one_iff.mp hlen
  have hfirst : s.processingList.request s.processed = some r := by
    have hget := hR.batch.get 0 (by omega)
    rw [Nat.add_zero] at hget
    simpa [hr] using hget
  have hlt : s.processed < bufferSize := by
    rw [hprocessed]
    exact Nat.zero_lt_succ 1023
  have hlast : s.processed + 1 = s.processingList.count := by omega
  have hwait : ¬ s.processed ≥ s.processingList.count := by omega
  refine ⟨{ s with
    processingList :=
      { request := Function.update s.processingList.request s.processed none, count := 0 }
    processed := 0
    dispatched := s.dispatched ++ [r] }, ?_, { hloads with batch := rfl, processed := rfl }⟩
  rw [Runtime.step, waitWhile_ok hwait, Section.bind_ok, Runtime.dispatchNext, load_ok hlt,
    Section.bind_ok, hfirst]
  simp only [store_ok hlt, Section.bind_ok, if_pos hlast]
  rfl

omit [DecidableEq τ] in
/-- When every queue is empty, every request has been handed over. -/
theorem Traced.all_dispatched (h : Traced s) (hcalm : Calm s) {r : Request ι}
    (hr : r ∈ s.submitted) : r ∈ s.dispatched := by
  obtain ⟨q, hq, hR⟩ := h
  have hord := Pipeline.State.Ordered.of_reachable hq
  have hbatch : q.batch = [] := by
    have hcount := hR.batch.count_eq
    rw [hcalm.batch] at hcount
    exact List.length_eq_zero_iff.mp (by omega)
  have htrunk : q.trunk = [] :=
    List.length_eq_zero_iff.mp (hR.trunk.count_eq.symm.trans hcalm.trunk)
  have hhand : q.hand = [] :=
    List.length_eq_zero_iff.mp (hR.hand.count_eq.symm.trans hcalm.hand)
  have hflow : q.flow = q.delivered := by
    rw [Pipeline.State.flow, hbatch, htrunk, hhand, List.append_nil, List.append_nil,
      List.append_nil]
  have hwaiting : q.waiting (Runtime.lane r) = [] := by
    cases hlane : Runtime.lane r with
    | none => rfl
    | some k =>
        show q.lanes k = []
        rcases Nat.lt_or_ge k bufferCount with hk | hk
        · exact List.length_eq_zero_iff.mp
            ((hR.lanes k hk).count_eq.symm.trans (hcalm.lanes k hk))
        · exact hR.no_lane k hk
  have hmem : r ∈ Pipeline.ofLane Runtime.lane (Runtime.lane r) q.submitted :=
    List.mem_filter.mpr ⟨hR.submitted ▸ hr, by simp⟩
  rw [hord.order, hflow, hwaiting, List.append_nil] at hmem
  exact hR.delivered ▸ (List.mem_filter.mp hmem).1

/-! ### With its callback -/

/-- Steps that no API thread takes. -/
def Serves (s s' : State τ ι) : Prop :=
  ∃ as : List (Action τ ι), (∀ a ∈ as, a.thread = none) ∧ (system τ ι).run s as = some s'

theorem Serves.refl (s : State τ ι) : Serves s s := ⟨[], by simp, rfl⟩

theorem Serves.step {s s' s'' : State τ ι} {a : Action τ ι} (ha : a.thread = none)
    (hs : Sessions.step s a = .ok s') (h : Serves s' s'') : Serves s s'' := by
  obtain ⟨as, has, hrun⟩ := h
  refine ⟨a :: as, ?_, ?_⟩
  · intro b hb
    rcases List.mem_cons.mp hb with rfl | hb
    · exact ha
    · exact has b hb
  · exact TransitionSystem.run_cons.mpr ⟨s', Section.toOption_eq_some.mpr hs, hrun⟩

theorem Serves.trans {s s' s'' : State τ ι} (h : Serves s s') (h' : Serves s' s'') :
    Serves s s'' := by
  obtain ⟨as, has, hrun⟩ := h
  obtain ⟨bs, hbs, hrun'⟩ := h'
  refine ⟨as ++ bs, fun a ha => (List.mem_append.mp ha).elim (has a) (hbs a), ?_⟩
  rw [TransitionSystem.run, List.foldlM_append]
  exact Option.bind_eq_some_iff.mpr ⟨s', hrun, hrun'⟩

theorem background_run {s : State τ ι} {a : Background}
    {runtime : Runtime.State τ ι} (hr : Runtime.step s.runtime a.action = .ok runtime) :
    Sessions.step s (.background a) = .ok { s with runtime := runtime } := by
  rw [Sessions.step, hr]
  rfl

theorem callback_run {s : State τ ι} {r : Request ι} (hdisp : r ∈ s.runtime.dispatched)
    (hanswer : s.answer r = none) {request : TaskRequest} (hr : s.task r = some request)
    (out : List ℕ) :
    Sessions.step s (.callback r out) = .ok (answered s r request out) := by
  have hwait : ¬ (r ∉ s.runtime.dispatched ∨ (s.answer r).isSome) := by
    rw [hanswer]
    simpa using hdisp
  rw [Sessions.step, waitWhile_ok hwait, Section.bind_ok, callback, hr]
  rfl

/-- A request that is alone in the runtime goes through all of its queues. -/
theorem Traced.passes {s : State τ ι} (h : Traced s.runtime) {t : τ} {i : ℕ}
    (hmem : (t, i) ∈ s.runtime.held)
    (hloads : Loads s.runtime .select 0 0 0 (Function.update (fun _ => 0) i 1)) :
    ∃ runtime, Serves s { s with runtime := runtime } ∧ Traced runtime ∧ Calm runtime ∧
      runtime.held = s.runtime.held ∧ runtime.submitted = s.runtime.submitted := by
  have hlt := h.owned.lt _ hmem
  obtain ⟨s₁, hr₁, hl₁⟩ := select_run h hmem hloads
  have ht₁ := h.step hr₁
  have h₁ := background_behind (a := .select) hr₁
  obtain ⟨s₂, hr₂, hl₂⟩ := extract_run ht₁ hlt hl₁
  have ht₂ := ht₁.step hr₂
  have h₂ := background_behind (a := .extract) hr₂
  obtain ⟨s₃, hr₃, hl₃⟩ := submitList_run ht₂ hl₂
  have ht₃ := ht₂.step hr₃
  have h₃ := background_behind (a := .submitList) hr₃
  obtain ⟨s₄, hr₄, hl₄⟩ := read_run ht₃ hl₃
  have ht₄ := ht₃.step hr₄
  have h₄ := background_behind (a := .read 1) hr₄
  obtain ⟨s₅, hr₅, hcalm⟩ := dispatch_run ht₄ hl₄
  have h₅ := background_behind (a := .dispatch) hr₅
  refine ⟨s₅, ?_, ht₄.step hr₅, hcalm, ?_, ?_⟩
  · refine .step rfl (background_run (a := .select) hr₁) ?_
    refine .step rfl (background_run (a := .extract) hr₂) ?_
    refine .step rfl (background_run (a := .submitList) hr₃) ?_
    refine .step rfl (background_run (a := .read 1) hr₄) ?_
    exact .step rfl (background_run (a := .dispatch) hr₅) (Serves.refl _)
  · rw [h₅.held, h₄.held, h₃.held, h₂.held, h₁.held]
  · rw [h₅.submitted, h₄.submitted, h₃.submitted, h₂.submitted, h₁.submitted]

/-- It is answered after that. -/
theorem Sound.served {s : State τ ι} (h : Sound s) {t : τ} {i : ℕ}
    (hmem : (t, i) ∈ s.runtime.held)
    (hloads : Loads s.runtime .select 0 0 0 (Function.update (fun _ => 0) i 1)) {r : Request ι}
    (hr : r ∈ s.runtime.submitted) (hnone : s.answer r = none)
    (hothers : ∀ q ∈ s.runtime.submitted, q ≠ r → (s.answer q).isSome) :
    ∃ s', Serves s s' ∧ Calm s'.runtime ∧ s'.runtime.held = s.runtime.held ∧
      ∀ q ∈ s'.runtime.submitted, (s'.answer q).isSome := by
  obtain ⟨runtime, hserves, htraced, hcalm, hheld, hsub⟩ := h.traced.passes hmem hloads
  have hfreed : r ∉ s.freed := fun hc => by
    have hsome := h.memory.freed r hc
    rw [hnone] at hsome
    cases hsome
  obtain ⟨request, hrequest⟩ :=
    Option.isSome_iff_exists.mp ((h.memory.allocated r).mpr ⟨hr, hfreed⟩)
  have hdisp := htraced.all_dispatched hcalm (hsub ▸ hr)
  have hback := callback_run (s := { s with runtime := runtime }) hdisp hnone hrequest []
  refine ⟨Sessions.answered { s with runtime := runtime } r request [],
    hserves.trans (.step rfl hback (Serves.refl _)), hcalm, hheld, fun q hq => ?_⟩
  have hq' : q ∈ s.runtime.submitted := hsub ▸ hq
  show (Function.update s.answer r (some []) q).isSome
  by_cases hqr : q = r
  · rw [hqr, Function.update_self]
    rfl
  · rw [Function.update_of_ne hqr]
    exact hothers q hq' hqr

end Sessions

end Ipcl.HeQat
