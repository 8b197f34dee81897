/-
What the request pipeline is for.

Requests enter through lanes, or directly into a trunk.  One hand takes some of a lane
and puts them at the end of the trunk; another takes a batch off the front of the
trunk and delivers it one by one.  Here all queues are lists without bound.

A lane keeps its order because only one hand moves requests and puts down all it has
before it takes more: what has left the lane is ahead of what is still in it,
whichever queue it is in.  From this equation, one for each lane, it follows that the
places hold every submitted request once.
-/
import Ipcl.Lib.Transition

namespace Pipeline

variable {κ ρ : Type} [DecidableEq κ]

/-- The queues, and what has been submitted and delivered so far. -/
structure State (κ ρ : Type) where
  submitted : List ρ
  lanes : κ → List ρ
  hand : List ρ
  trunk : List ρ
  batch : List ρ
  delivered : List ρ

inductive Action (κ ρ : Type) where
  /-- A new request enters its lane, or the trunk. -/
  | submit (r : ρ)
  /-- The hand takes up to `n` requests of a lane. -/
  | pull (k : κ) (n : ℕ)
  /-- The hand puts down what it holds. -/
  | forward
  /-- Up to `n` requests are taken off the trunk. -/
  | read (n : ℕ)
  /-- The first of the batch is delivered. -/
  | deliver

variable (lane : ρ → Option κ)

def step [DecidableEq ρ] (s : State κ ρ) : Action κ ρ → Option (State κ ρ)
  | .submit r =>
      if r ∈ s.submitted then none
      else match lane r with
        | some k => some { s with
            submitted := s.submitted ++ [r]
            lanes := Function.update s.lanes k (s.lanes k ++ [r]) }
        | none => some { s with
            submitted := s.submitted ++ [r]
            trunk := s.trunk ++ [r] }
  | .pull k n =>
      if s.hand = [] then some { s with
        hand := (s.lanes k).take n
        lanes := Function.update s.lanes k ((s.lanes k).drop n) }
      else none
  | .forward => some { s with hand := [], trunk := s.trunk ++ s.hand }
  | .read n =>
      if s.batch = [] then some { s with batch := s.trunk.take n, trunk := s.trunk.drop n }
      else none
  | .deliver =>
      match s.batch with
      | r :: rest => some { s with batch := rest, delivered := s.delivered ++ [r] }
      | [] => none

/-- The pipeline, empty at first. -/
def system [DecidableEq ρ] : TransitionSystem (State κ ρ) (Action κ ρ) where
  init s := s = ⟨[], fun _ => [], [], [], [], []⟩
  step := step lane

theorem run_of_step [DecidableEq ρ] {s s' : State κ ρ} {a : Action κ ρ}
    (h : step lane s a = some s') : (system lane).run s [a] = some s' := by
  rw [TransitionSystem.run_singleton]
  exact h

/-- Everything past the lanes, in the order it will be delivered. -/
def State.flow (s : State κ ρ) : List ρ := s.delivered ++ s.batch ++ s.trunk ++ s.hand

/-- The requests of one lane, or of none. -/
def ofLane (o : Option κ) (l : List ρ) : List ρ := l.filter fun r => lane r = o

/-- What a lane still holds; nothing waits to enter the trunk. -/
def State.waiting (s : State κ ρ) : Option κ → List ρ
  | some k => s.lanes k
  | none => []

/-- What has been submitted through a lane is what has left it and then what has not. -/
structure State.Ordered (s : State κ ρ) : Prop where
  nodup : s.submitted.Nodup
  lane_eq : ∀ k, ∀ r ∈ s.lanes k, lane r = some k
  hand_lane : ∀ r ∈ s.hand, lane r ≠ none
  order : ∀ o, ofLane lane o s.submitted = ofLane lane o s.flow ++ s.waiting o

variable {lane}

theorem ofLane_append (o : Option κ) (l m : List ρ) :
    ofLane lane o (l ++ m) = ofLane lane o l ++ ofLane lane o m := List.filter_append ..

theorem ofLane_of_eq {o : Option κ} {l : List ρ} (h : ∀ r ∈ l, lane r = o) :
    ofLane lane o l = l := List.filter_eq_self.mpr fun r hr => by simpa using h r hr

theorem ofLane_of_ne {o : Option κ} {l : List ρ} (h : ∀ r ∈ l, lane r ≠ o) :
    ofLane lane o l = [] := List.filter_eq_nil_iff.mpr fun r hr => by simpa using h r hr

namespace State.Ordered

variable {s s' : State κ ρ}

theorem nodup_append {r : ρ} (h : s.Ordered lane) (hr : r ∉ s.submitted) :
    (s.submitted ++ [r]).Nodup := by
  rw [List.nodup_append]
  refine ⟨h.nodup, List.nodup_singleton r, fun a ha b hb => ?_⟩
  rw [List.mem_singleton] at hb
  rintro rfl
  exact hr (hb ▸ ha)

/-- Entering a lane. -/
theorem submit_lane {r : ρ} {k : κ} (h : s.Ordered lane) (hr : r ∉ s.submitted)
    (hk : lane r = some k) :
    State.Ordered lane { s with
      submitted := s.submitted ++ [r]
      lanes := Function.update s.lanes k (s.lanes k ++ [r]) } where
  nodup := h.nodup_append hr
  lane_eq j q hq := by
    by_cases hj : j = k
    · subst hj
      simp only [Function.update_self] at hq
      rcases List.mem_append.mp hq with hq | hq
      · exact h.lane_eq j q hq
      · rw [List.mem_singleton.mp hq, hk]
    · simp only [Function.update_of_ne hj] at hq
      exact h.lane_eq j q hq
  hand_lane := h.hand_lane
  order o := by
    show ofLane lane o (s.submitted ++ [r]) = ofLane lane o s.flow ++ _
    rw [ofLane_append, h.order o, List.append_assoc]
    congr 1
    by_cases ho : o = some k
    · subst ho
      rw [ofLane_of_eq (by simpa using hk)]
      show s.lanes k ++ [r] = Function.update s.lanes k (s.lanes k ++ [r]) k
      rw [Function.update_self]
    · rw [ofLane_of_ne (by simpa [hk] using fun hc => ho hc.symm), List.append_nil]
      cases o with
      | none => rfl
      | some j =>
          show s.lanes j = Function.update s.lanes k (s.lanes k ++ [r]) j
          rw [Function.update_of_ne fun hc => ho (congrArg some hc)]

/-- Entering the trunk.  The hand is behind the trunk, and holds nothing that entered
there. -/
theorem submit_direct {r : ρ} (h : s.Ordered lane) (hr : r ∉ s.submitted)
    (hk : lane r = none) :
    State.Ordered lane { s with
      submitted := s.submitted ++ [r]
      trunk := s.trunk ++ [r] } where
  nodup := h.nodup_append hr
  lane_eq := h.lane_eq
  hand_lane := h.hand_lane
  order o := by
    have horder := h.order o
    show ofLane lane o (s.submitted ++ [r])
      = ofLane lane o (s.delivered ++ s.batch ++ (s.trunk ++ [r]) ++ s.hand) ++ s.waiting o
    simp only [State.flow, ofLane_append] at horder ⊢
    by_cases ho : o = none
    · subst ho
      rw [horder, ofLane_of_ne h.hand_lane]
      simp [State.waiting]
    · rw [ofLane_of_ne (l := [r]) (by simpa [hk] using fun hc => ho hc.symm), horder]
      simp

/-- Taking some of a lane into the empty hand. -/
theorem pull {k : κ} {n : ℕ} (h : s.Ordered lane) (hhand : s.hand = []) :
    State.Ordered lane { s with
      hand := (s.lanes k).take n
      lanes := Function.update s.lanes k ((s.lanes k).drop n) } where
  nodup := h.nodup
  lane_eq j q hq := by
    by_cases hj : j = k
    · subst hj
      simp only [Function.update_self] at hq
      exact h.lane_eq j q (List.mem_of_mem_drop hq)
    · simp only [Function.update_of_ne hj] at hq
      exact h.lane_eq j q hq
  hand_lane q hq := by
    rw [h.lane_eq k q (List.mem_of_mem_take hq)]
    exact Option.some_ne_none k
  order o := by
    have horder := h.order o
    show ofLane lane o s.submitted
      = ofLane lane o (s.delivered ++ s.batch ++ s.trunk ++ (s.lanes k).take n) ++ _
    rw [State.flow, hhand, List.append_nil] at horder
    have htaken : ∀ q ∈ (s.lanes k).take n, lane q = some k := fun q hq =>
      h.lane_eq k q (List.mem_of_mem_take hq)
    have hleave : s.waiting o = ofLane lane o ((s.lanes k).take n)
        ++ State.waiting { s with
            hand := (s.lanes k).take n
            lanes := Function.update s.lanes k ((s.lanes k).drop n) } o := by
      by_cases ho : o = some k
      · subst ho
        show s.lanes k = _ ++ Function.update s.lanes k ((s.lanes k).drop n) k
        rw [ofLane_of_eq htaken, Function.update_self, List.take_append_drop]
      · rw [ofLane_of_ne fun q hq hc => ho (hc.symm.trans (htaken q hq)), List.nil_append]
        cases o with
        | none => rfl
        | some j =>
            show s.lanes j = Function.update s.lanes k ((s.lanes k).drop n) j
            rw [Function.update_of_ne fun hc => ho (congrArg some hc)]
    rw [horder, ofLane_append o _ ((s.lanes k).take n), hleave]
    exact (List.append_assoc _ _ _).symm

/-- A move that leaves the flow as it is. -/
theorem of_flow_eq (h : s.Ordered lane) (hsub : s'.submitted = s.submitted)
    (hlanes : s'.lanes = s.lanes) (hflow : s'.flow = s.flow)
    (hhand : ∀ r ∈ s'.hand, r ∈ s.hand) : s'.Ordered lane where
  nodup := hsub ▸ h.nodup
  lane_eq k r hr := h.lane_eq k r (hlanes ▸ hr)
  hand_lane r hr := h.hand_lane r (hhand r hr)
  order o := by
    have hwait : s'.waiting o = s.waiting o := by
      cases o with
      | none => rfl
      | some k => exact congrFun hlanes k
    rw [hsub, hflow, hwait, h.order o]

/-- One step keeps the order of every lane. -/
theorem step [DecidableEq ρ] {a : Action κ ρ} (h : s.Ordered lane)
    (hs : Pipeline.step lane s a = some s') :
    s'.Ordered lane := by
  cases a with
  | submit r =>
      rw [Pipeline.step] at hs
      by_cases hr : r ∈ s.submitted
      · rw [if_pos hr] at hs
        cases hs
      · rw [if_neg hr] at hs
        cases hk : lane r with
        | some k =>
            rw [hk] at hs
            cases hs
            exact h.submit_lane hr hk
        | none =>
            rw [hk] at hs
            cases hs
            exact h.submit_direct hr hk
  | pull k n =>
      rw [Pipeline.step] at hs
      by_cases hhand : s.hand = []
      · rw [if_pos hhand] at hs
        cases hs
        exact h.pull hhand
      · rw [if_neg hhand] at hs
        cases hs
  | forward =>
      cases hs
      exact h.of_flow_eq rfl rfl (by simp [State.flow]) (by simp)
  | read n =>
      rw [Pipeline.step] at hs
      by_cases hbatch : s.batch = []
      · rw [if_pos hbatch] at hs
        cases hs
        exact h.of_flow_eq rfl rfl (by simp [State.flow, hbatch]) fun r hr => hr
      · rw [if_neg hbatch] at hs
        cases hs
  | deliver =>
      rw [Pipeline.step] at hs
      cases hbatch : s.batch with
      | nil =>
          rw [hbatch] at hs
          cases hs
      | cons r rest =>
          rw [hbatch] at hs
          cases hs
          exact h.of_flow_eq rfl rfl (by simp [State.flow, hbatch]) fun r hr => hr

/-- In every state reached, every lane is in order. -/
theorem of_reachable [DecidableEq ρ] (h : (system lane).Reachable s) : s.Ordered lane := by
  refine h.invariant ?_ fun s a s' hs _ hstep => hs.step hstep
  rintro _ rfl
  refine ⟨List.nodup_nil, by simp, by simp, fun o => ?_⟩
  cases o <;> rfl

/-! ### Every request in one place -/

variable [DecidableEq ρ]

theorem count_flatMap_lanes (h : s.Ordered lane) {r : ρ} {k : κ} (hr : lane r = some k) :
    ∀ {ks : List κ}, ks.Nodup → k ∈ ks →
      (ks.flatMap s.lanes).count r = (s.lanes k).count r := by
  have hother : ∀ j, j ≠ k → (s.lanes j).count r = 0 := by
    intro j hj
    refine List.count_eq_zero_of_not_mem fun hmem => hj ?_
    exact Option.some.inj ((h.lane_eq j r hmem).symm.trans hr)
  have hnone : ∀ ks : List κ, k ∉ ks → (ks.flatMap s.lanes).count r = 0 := by
    intro ks hk
    refine List.count_eq_zero_of_not_mem fun hmem => ?_
    obtain ⟨j, hj, hrj⟩ := List.mem_flatMap.mp hmem
    have hne : j ≠ k := fun hc => hk (hc ▸ hj)
    exact List.count_eq_zero.mp (hother j hne) hrj
  intro ks
  induction ks with
  | nil => intro _ hk; cases hk
  | cons j rest ih =>
      intro hnd hk
      rw [List.flatMap_cons, List.count_append]
      rw [List.nodup_cons] at hnd
      by_cases hj : j = k
      · subst hj
        rw [hnone rest hnd.1, Nat.add_zero]
      · rw [hother j hj, Nat.zero_add]
        exact ih hnd.2 ((List.mem_cons.mp hk).resolve_left fun hc => hj hc.symm)

/-- A request submitted is in the flow, or waits in its lane. -/
theorem count_submitted (h : s.Ordered lane) (r : ρ) :
    s.submitted.count r = s.flow.count r + (s.waiting (lane r)).count r := by
  have hcount : ∀ l : List ρ, (ofLane lane (lane r) l).count r = l.count r := fun l =>
    List.count_filter (by simp)
  have horder := congrArg (List.count r) (h.order (lane r))
  rwa [List.count_append, hcount, hcount] at horder

/-- The flow and the lanes hold every submitted request once. -/
theorem perm (h : s.Ordered lane) {ks : List κ} (hnd : ks.Nodup)
    (hks : ∀ k, s.lanes k ≠ [] → k ∈ ks) :
    (s.flow ++ ks.flatMap s.lanes).Perm s.submitted := by
  rw [List.perm_iff_count]
  intro r
  rw [List.count_append, h.count_submitted]
  congr 1
  cases hr : lane r with
  | none =>
      refine List.count_eq_zero_of_not_mem fun hmem => ?_
      obtain ⟨k, -, hrk⟩ := List.mem_flatMap.mp hmem
      rw [h.lane_eq k r hrk] at hr
      cases hr
  | some k =>
      by_cases hk : k ∈ ks
      · exact h.count_flatMap_lanes hr hnd hk
      · have hempty : s.lanes k = [] := by
          by_contra hc
          exact hk (hks k hc)
        show _ = (s.lanes k).count r
        rw [hempty, List.count_nil]
        refine List.count_eq_zero_of_not_mem fun hmem => ?_
        obtain ⟨j, hj, hrj⟩ := List.mem_flatMap.mp hmem
        have hjk : j = k := Option.some.inj ((h.lane_eq j r hrj).symm.trans hr)
        exact hk (hjk ▸ hj)

omit [DecidableEq ρ] in
/-- What has been delivered of a lane is the beginning of what was submitted. -/
theorem delivered_prefix (h : s.Ordered lane) (o : Option κ) :
    ofLane lane o s.delivered <+: ofLane lane o s.submitted := by
  rw [h.order o, State.flow, List.append_assoc, List.append_assoc, ofLane_append,
    List.append_assoc]
  exact List.prefix_append _ _

omit [DecidableEq ρ] in
/-- What has been delivered was submitted. -/
theorem mem_submitted (h : s.Ordered lane) {r : ρ} (hr : r ∈ s.delivered) :
    r ∈ s.submitted := by
  have hlane : r ∈ ofLane lane (lane r) s.delivered := List.mem_filter.mpr ⟨hr, by simp⟩
  have hmem := (h.delivered_prefix (lane r)).subset hlane
  exact (List.mem_filter.mp hmem).1

/-- Nothing is delivered twice, and what has been delivered is nowhere on the way. -/
theorem nodup_flow (h : s.Ordered lane) : s.flow.Nodup := by
  rw [List.nodup_iff_count_le_one]
  intro r
  have hone := List.nodup_iff_count_le_one.mp h.nodup r
  rw [h.count_submitted] at hone
  omega

/-- What has been delivered is not in the trunk. -/
theorem not_mem_trunk (h : s.Ordered lane) {r : ρ} (hr : r ∈ s.delivered) : r ∉ s.trunk := by
  intro ht
  have hnd := h.nodup_flow
  rw [State.flow, List.append_assoc, List.append_assoc] at hnd
  exact List.disjoint_of_nodup_append hnd hr (by simp [ht])

/-- Nor is it in the hand. -/
theorem not_mem_hand (h : s.Ordered lane) {r : ρ} (hr : r ∈ s.delivered) : r ∉ s.hand := by
  intro ht
  have hnd := h.nodup_flow
  rw [State.flow, List.append_assoc, List.append_assoc] at hnd
  exact List.disjoint_of_nodup_append hnd hr (by simp [ht])

omit [DecidableEq ρ] in
/-- What the hand holds was submitted. -/
theorem hand_submitted (h : s.Ordered lane) {r : ρ} (hr : r ∈ s.hand) : r ∈ s.submitted := by
  have hflow : r ∈ ofLane lane (lane r) s.flow :=
    List.mem_filter.mpr ⟨by simp [State.flow, hr], by simp⟩
  have hmem : r ∈ ofLane lane (lane r) s.submitted := by
    rw [h.order (lane r)]
    exact List.mem_append_left _ hflow
  exact (List.mem_filter.mp hmem).1

omit [DecidableEq ρ] in
/-- What has been delivered is in no lane any more. -/
theorem not_mem_lane (h : s.Ordered lane) {r : ρ} (hr : r ∈ s.delivered) (k : κ) :
    r ∉ s.lanes k := by
  intro hk
  have hnd : (ofLane lane (some k) s.submitted).Nodup := h.nodup.filter _
  rw [h.order (some k)] at hnd
  have hflow : r ∈ ofLane lane (some k) s.flow :=
    List.mem_filter.mpr ⟨by simp [State.flow, hr], by simpa using h.lane_eq k r hk⟩
  exact List.disjoint_of_nodup_append hnd hflow hk

end State.Ordered

end Pipeline
