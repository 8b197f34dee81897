/-
When a batch hangs.

Whether a release comes to its end has been settled for every state in which one is in
progress.  What is left is that such states are reached: a thread that has the runtime for
itself can be taken through all of its slices, one request after the other, as far as its
releases come to their end.  So the first slice with a failed call, or with more calls than
the ring has slots, is one whose release hangs.
-/
import Ipcl.Proofs.HeQat.Passage
import Ipcl.Proofs.HeQat.Slices

namespace Ipcl.HeQat

variable {τ ι : Type} [DecidableEq τ] [DecidableEq ι]

namespace Sessions

variable {s : State τ ι} {t : τ} {i : ℕ}

omit [DecidableEq ι] in
theorem outside_run (hmem : (t, i) ∈ s.runtime.held) (hwalk : s.walk i = none) :
    waitWhile ((t, i) ∉ s.runtime.held ∨ (s.walk i).isSome) = .ok () := by
  refine waitWhile_ok ?_
  rw [hwalk]
  simpa using hmem

theorem call_failed_run (hmem : (t, i) ∈ s.runtime.held) (hwalk : s.walk i = none) (ref : ι)
    {a : Resources} {status : Status} (hp : packRequest a = .error status) :
    step s (.call t i ref a) = .ok (failed s i) := by
  rw [step, outside_run hmem hwalk, Section.bind_ok, hp]
  rfl

theorem call_queued_run (hmem : (t, i) ∈ s.runtime.held) (hwalk : s.walk i = none) {ref : ι}
    {a : Resources} {request : TaskRequest} (hp : packRequest a = .ok request)
    {runtime : Runtime.State τ ι}
    (hr : Runtime.step s.runtime (.submit t i ref) = .ok runtime) :
    step s (.call t i ref a) = .ok (submitted s runtime i ref request) := by
  rw [step, outside_run hmem hwalk, Section.bind_ok, hp]
  show (Runtime.step s.runtime (.submit t i ref) >>= _) = _
  rw [hr]
  rfl

theorem enter_run (hlt : i < bufferCount) (hmem : (t, i) ∈ s.runtime.held)
    (hwalk : s.walk i = none) (batchSize : ℕ) :
    step s (.release t i batchSize) = .ok (entered s i batchSize) := by
  rw [step, outside_run hmem hwalk, Section.bind_ok, enter, load_ok hlt]
  rfl

end Sessions

namespace Slices

open Sessions (Action Calm Loads)

variable {t : τ} {slices : List (List ℕ)} {ok : ℕ → Bool}

/-! ### Reaching states -/

theorem reach_own {s u : State τ ι} {s' : Sessions.State τ ι} {a : Action τ ι}
    (h : (system τ ι t slices ok).ReachableIf (Others t) s) (ha : a.thread = some t)
    (hs : Sessions.step s.sessions a = .ok s') (hf : follow ok s s' a = some u) :
    (system τ ι t slices ok).ReachableIf (Others t) u := by
  refine h.step (a := a) (Or.inl ha) ?_
  show step t ok s a = some u
  rw [step, hs]
  simp only [if_pos ha]
  exact hf

theorem reach_serves {s : State τ ι} {s' : Sessions.State τ ι}
    (h : (system τ ι t slices ok).ReachableIf (Others t) s)
    (hserves : Sessions.Serves s.sessions s') :
    (system τ ι t slices ok).ReachableIf (Others t) { s with sessions := s' } := by
  obtain ⟨as, has, hrun⟩ := hserves
  induction as generalizing s with
  | nil =>
      cases hrun
      exact h
  | cons a rest ih =>
      obtain ⟨s₁, hs₁, hrest⟩ := TransitionSystem.run_cons.mp hrun
      have hnone : a.thread = none := has a List.mem_cons_self
      have hne : a.thread ≠ some t := by simp [hnone]
      have hplan : Sessions.Planned s.sessions a := by
        cases a with
        | release u bufferId batchSize => cases hnone
        | _ => trivial
      have hstep : step t ok s a = some { s with sessions := s₁ } := by
        rw [step, Sessions.step_ok hs₁]
        simp only [if_neg hne]
      exact ih (s := { s with sessions := s₁ }) (h.step (a := a) (Or.inr hplan) hstep)
        (fun b hb => has b (List.mem_cons_of_mem a hb)) hrest

/-- The runtime is idle, and has answered everything. -/
structure Resting (t : τ) (slices : List (List ℕ)) (ok : ℕ → Bool) (s : State τ ι) : Prop where
  reachable : (system τ ι t slices ok).ReachableIf (Others t) s
  calm : Calm s.sessions.runtime
  answered : ∀ r ∈ s.sessions.runtime.submitted, (s.sessions.answer r).isSome

namespace Resting

theorem initial : Resting t slices ok (State.initial slices : State τ ι) where
  reachable := .init rfl
  calm := ⟨rfl, rfl, rfl, rfl, rfl, fun _ _ => rfl⟩
  answered r hr := by cases hr

variable {s : State τ ι} (h : Resting t slices ok s) {id i : ℕ} {slice : List ℕ}
  {rest : List (List ℕ)}
include h

theorem acquire (hplace : s.place = .acquire) (hslices : s.slices = slice :: rest)
    (hheld : s.sessions.runtime.held = []) :
    ∃ (u : State τ ι) (id : ℕ), Resting t slices ok u ∧ u.place = .call id 0 ∧
      u.slices = slice :: rest ∧ u.sessions.runtime.held = [(t, id)] := by
  have howned := (following h.reachable).sessions.traced.owned
  have hroom : s.sessions.runtime.outstanding.busyCount < bufferCount := by
    rw [howned.busy, hheld]
    exact Nat.zero_lt_succ 7
  obtain ⟨runtime, hr⟩ := Sessions.acquire_run howned hroom t 0
  have hstep : Sessions.step s.sessions (.acquire t 0)
      = .ok { s.sessions with runtime := runtime } := by
    rw [Sessions.step, hr]
    rfl
  obtain ⟨id, o, hbuf, rfl⟩ := Sessions.acquire_ok howned hr
  have hfollow : follow ok s { s.sessions with
        runtime := { s.sessions.runtime with
          outstanding := o, held := (t, id) :: s.sessions.runtime.held } } (.acquire t 0)
      = some { s with
          sessions := { s.sessions with
            runtime := { s.sessions.runtime with
              outstanding := o, held := (t, id) :: s.sessions.runtime.held } }
          place := .call id 0 } := by
    simp only [follow, hplace, hslices, if_true]
    rfl
  refine ⟨_, id, ⟨reach_own h.reachable rfl hstep hfollow, ?_, h.answered⟩, rfl, hslices, ?_⟩
  · refine { h.calm with lanes := fun j hj => ?_ }
    show (o.buffer j).count = 0
    rw [hbuf]
    exact h.calm.lanes j hj
  · show (t, id) :: s.sessions.runtime.held = _
    rw [hheld]

/-- One element: its call, and the service of its request if there is one. -/
theorem call [Infinite ι] (hplace : s.place = .call id i) (hslices : s.slices = slice :: rest)
    (hi : i < slice.length) (hheld : s.sessions.runtime.held = [(t, id)]) :
    ∃ u : State τ ι, Resting t slices ok u ∧ u.place = .call id (i + 1) ∧
      u.slices = slice :: rest ∧ u.sessions.runtime.held = [(t, id)] := by
  have hfollowing := following h.reachable
  have hlinked := hfollowing.linked
  rw [hplace] at hlinked
  obtain ⟨hmem, hwalk, -⟩ := hlinked
  -- a request that is new
  obtain ⟨ref, href⟩ := Infinite.exists_notMem_finset
    (s.sessions.runtime.submitted.map Request.ref).toFinset
  have hnew : (⟨some id, ref⟩ : Request ι) ∉ s.sessions.runtime.submitted := fun hc =>
    href (List.mem_toFinset.mpr (List.mem_map_of_mem hc))
  cases hok : ok slice[i] with
  | false =>
      have hp : packRequest { Resources.all with pBase := false } = .error .fail := rfl
      have hstep := Sessions.call_failed_run hmem hwalk ref hp
      have hfollow : follow ok s (Sessions.failed s.sessions id)
          (.call t id ref { Resources.all with pBase := false })
          = some { s with
            sessions := Sessions.failed s.sessions id
            place := .call id (i + 1) } := by
        simp only [follow, hplace, hslices, List.getElem?_eq_getElem hi, Option.map_some, hok, hp]
        rfl
      exact ⟨_, ⟨reach_own h.reachable rfl hstep hfollow, h.calm, h.answered⟩, rfl, hslices,
        hheld⟩
  | true =>
      have hp : packRequest Resources.all = .ok (.packed .bnModExp 5) := rfl
      obtain ⟨runtime, hr, hloads⟩ :=
        Sessions.submit_run hfollowing.sessions.traced h.calm hmem hnew
      have hstep := Sessions.call_queued_run hmem hwalk hp hr
      have hreach := reach_own h.reachable rfl hstep
        (u := { s with
          sessions := Sessions.submitted s.sessions runtime id ref (.packed .bnModExp 5)
          place := .call id (i + 1) }) (by
        simp only [follow, hplace, hslices, List.getElem?_eq_getElem hi, Option.map_some, hok, hp]
        rfl)
      have hsound := (following hreach).sessions
      have hanswer := (hfollowing.sessions.fresh hnew).1
      obtain ⟨-, rfl⟩ := Sessions.submit_ok hr
      obtain ⟨s', hserves, hcalm, hheld', hanswered⟩ := hsound.served hmem hloads
        (List.mem_append_right _ (List.mem_singleton_self _)) hanswer (fun q hq hne =>
          h.answered q ((List.mem_append.mp hq).resolve_right fun hc =>
            hne (List.mem_singleton.mp hc)))
      exact ⟨_, ⟨reach_serves hreach hserves, hcalm, hanswered⟩, rfl, hslices,
        hheld'.trans hheld⟩

/-- All elements of a slice. -/
theorem calls [Infinite ι] (hslices : s.slices = slice :: rest)
    (hheld : s.sessions.runtime.held = [(t, id)]) (hplace : s.place = .call id i)
    (hi : i ≤ slice.length) :
    ∃ u : State τ ι, Resting t slices ok u ∧ u.place = .call id slice.length ∧
      u.slices = slice :: rest ∧ u.sessions.runtime.held = [(t, id)] := by
  induction hn : slice.length - i generalizing s i with
  | zero =>
      have heq : i = slice.length := by omega
      exact ⟨s, h, heq ▸ hplace, hslices, hheld⟩
  | succ n ih =>
      obtain ⟨u, hu, hplace', hslices', hheld'⟩ := h.call hplace hslices (by omega) hheld
      exact ih hu hslices' hheld' hplace' (by omega) (by omega)

/-- From one acquisition to the release. -/
theorem to_release [Infinite ι] (hplace : s.place = .acquire) (hslices : s.slices = slice :: rest)
    (hheld : s.sessions.runtime.held = []) :
    ∃ (u : State τ ι) (id : ℕ), Resting t slices ok u ∧ u.place = .release id ∧
      u.slices = slice :: rest ∧ u.sessions.runtime.held = [(t, id)] := by
  obtain ⟨s₁, id, h₁, hplace₁, hslices₁, hheld₁⟩ := h.acquire hplace hslices hheld
  obtain ⟨s₂, h₂, hplace₂, hslices₂, hheld₂⟩ :=
    h₁.calls hslices₁ hheld₁ hplace₁ (Nat.zero_le _)
  have hfollowing := following h₂.reachable
  have hlinked := hfollowing.linked
  rw [hplace₂] at hlinked
  obtain ⟨hmem, hwalk, -⟩ := hlinked
  have hstep := Sessions.enter_run (hfollowing.sessions.lt_of_held hmem) hmem hwalk slice.length
  have hfollow : follow ok s₂ (Sessions.entered s₂.sessions id slice.length)
      (.release t id slice.length) = some { s₂ with
        sessions := Sessions.entered s₂.sessions id slice.length, place := .release id } := by
    simp only [follow, hplace₂, hslices₂, and_self, if_true]
  exact ⟨_, id, ⟨reach_own h₂.reachable rfl hstep hfollow, h₂.calm, h₂.answered⟩, rfl, hslices₂,
    hheld₂⟩

/-- A step of the thread in its release leaves the runtime idle. -/
theorem own_step (hplace : s.place = .release id) (hslices : s.slices = slice :: rest)
    (hheld : s.sessions.runtime.held = [(t, id)]) {a : Action τ ι} {u : State τ ι}
    (ha : a.thread = some t) (hs : Slices.step t ok s a = some u) :
    Resting t slices ok u ∧
      (u.place = .release id ∧ u.slices = slice :: rest ∧ u.sessions.runtime.held = [(t, id)] ∨
        u.place = .acquire ∧ u.slices = rest ∧ u.sessions.runtime.held = []) := by
  have hsound := (following h.reachable).sessions
  have hreach := h.reachable.step (a := a) (Or.inl ha) hs
  obtain ⟨s', hstep, ⟨-, hf⟩ | ⟨hne, -⟩⟩ := step_inv hs
  swap
  · exact absurd ha hne
  cases hf with
  | acquire hplace' hslices' => rw [hplace] at hplace'; cases hplace'
  | call hplace' hslices' he hok => rw [hplace] at hplace'; cases hplace'
  | release hplace' hslices' => rw [hplace] at hplace'; cases hplace'
  | look hplace' =>
      obtain ⟨-, w, -, -, -, rfl⟩ := Sessions.look_ok hstep
      exact ⟨⟨hreach, h.calm, h.answered⟩, Or.inl ⟨hplace, hslices, hheld⟩⟩
  | finish hplace' =>
      obtain ⟨hmem, w, r, -, -, -, rfl⟩ := hsound.finish_ok hstep
      exact ⟨⟨hreach, h.calm.withBuffer rfl, h.answered⟩, Or.inl ⟨hplace, hslices, hheld⟩⟩
  | @giveBack v id' slice' rest' hplace' hslices' =>
      cases ha
      rw [hplace] at hplace'
      cases hplace'
      rw [hslices] at hslices'
      cases hslices'
      obtain ⟨hmem, w, o, -, -, hbuf, rfl⟩ := hsound.giveBack_effect hstep
      have hcalm := h.calm.withBuffer (i := id) (b := {
        s.sessions.runtime.outstanding.buffer id with nextDataOut := w.nextDataOut }) rfl
      refine ⟨⟨hreach, { hcalm with lanes := fun j hj => ?_ }, h.answered⟩,
        Or.inr ⟨rfl, rfl, ?_⟩⟩
      · show (o.buffer j).count = 0
        rw [hbuf]
        exact hcalm.lanes j hj
      · show s.sessions.runtime.held.erase (t, id) = []
        rw [hheld]
        simp

/-- The release as such. -/
theorem releasing (hplace : s.place = .release id) (hslices : s.slices = slice :: rest) :
    Releasing t slices ok id slice (s.sessions.calls id) s ∧
      ∀ q ∈ (s.sessions.calls id).reduceOption, (s.sessions.answer q).isSome := by
  have hrel : Releasing t slices ok id slice (s.sessions.calls id) s :=
    ⟨following h.reachable, hplace, ⟨rest, hslices⟩, rfl⟩
  refine ⟨hrel, fun q hq => h.answered q ?_⟩
  obtain ⟨w, -, hsession⟩ := hrel.exists_walk
  exact (hsession.submitted q hq).2

/-- Through a release that comes to its end, and on to the next slice. -/
theorem to_next (hplace : s.place = .release id) (hslices : s.slices = slice :: rest)
    (hheld : s.sessions.runtime.held = [(t, id)])
    (hgood : slice.length ≤ bufferSize ∧ ∀ e ∈ slice, ok e = true) :
    ∃ u : State τ ι, Resting t slices ok u ∧ u.place = .acquire ∧ u.slices = rest ∧
      u.sessions.runtime.held = [] := by
  induction hn : toGo (s.sessions.walk id) using Nat.strong_induction_on generalizing s with
  | _ n ih =>
      obtain ⟨hrel, hanswer⟩ := h.releasing hplace hslices
      obtain ⟨a, ha, hsome⟩ := hrel.enabled hanswer
      obtain ⟨u, hs⟩ := Option.isSome_iff_exists.mp hsome
      obtain ⟨hu, ⟨hplace', hslices', hheld'⟩ | hdone⟩ := h.own_step hplace hslices hheld ha hs
      · rcases hrel.nearer (hrel.good_iff.mp hgood) (Or.inl ha) hs with hleft | ⟨-, -, hlt⟩
        · exact absurd hplace' hleft
        · exact ih _ (hn ▸ hlt ha) hu hplace' hslices' hheld' rfl
      · exact ⟨u, hu, hdone⟩

/-- Every slice that is left has a release that ends, if all releases do. -/
theorem all_good [Infinite ι] (hc : FailuresContained τ ι t slices ok) (hplace : s.place = .acquire)
    (hheld : s.sessions.runtime.held = []) :
    ∀ slice ∈ s.slices, slice.length ≤ bufferSize ∧ ∀ e ∈ slice, ok e = true := by
  induction hslices : s.slices generalizing s with
  | nil =>
      intro slice hslice
      cases hslice
  | cons slice rest ih =>
      obtain ⟨u, id, hu, hplace', hslices', hheld'⟩ := h.to_release hplace hslices hheld
      obtain ⟨hrel, hanswer⟩ := hu.releasing hplace' hslices'
      have hgood : slice.length ≤ bufferSize ∧ ∀ e ∈ slice, ok e = true := by
        by_contra hbad
        exact hrel.hangs (fun hg => hbad (hrel.good_iff.mpr hg)) hanswer
          ((hc u hu.reachable).1 id hplace')
      obtain ⟨v, hv, hplaceᵥ, rfl, hheldᵥ⟩ := hu.to_next hplace' hslices' hheld' hgood
      intro slice' hslice'
      rcases List.mem_cons.mp hslice' with rfl | hrest
      · exact hgood
      · exact ih hv hplaceᵥ hheldᵥ rfl slice' hrest

end Resting

/-- A batch does not hang exactly when each of its calls queues a request and no slice has more
calls than the ring has slots.  The values are those of queued requests in any case. -/
theorem failures_contained_iff [Infinite ι] (t : τ) (worksize batchSize : ℕ) (ok : ℕ → Bool) :
    FailuresContained τ ι t (elements worksize batchSize) ok ↔
      ∀ slice ∈ elements worksize batchSize,
        slice.length ≤ bufferSize ∧ ∀ e ∈ slice, ok e = true := by
  constructor
  · intro hc
    exact Resting.initial.all_good hc rfl rfl
  · intro hgood s hreach
    have hfollowing := following hreach
    refine ⟨fun id hplace => ?_, hfollowing.values⟩
    have hlinked := hfollowing.linked
    rw [hplace] at hlinked
    obtain ⟨-, -, slice, rest, hslices, -⟩ := hlinked
    have hrel : Releasing t _ ok id slice (s.sessions.calls id) s :=
      ⟨hfollowing, hplace, ⟨rest, hslices⟩, rfl⟩
    have hmem : slice ∈ elements worksize batchSize :=
      hfollowing.suffix.subset (hslices ▸ List.mem_cons_self)
    exact hrel.ends (hrel.good_iff.mp (hgood slice hmem))

/-- Five elements in slices of two, each of them queued. -/
theorem failures_contained_five : FailuresContained ℕ ℕ 1 (elements 5 2) fun _ => true :=
  (failures_contained_iff 1 5 2 fun _ => true).mpr (by decide)

/-- The memory for the base of the only element is not there. -/
def failingBatch : List (Sessions.Action ℕ ℕ) :=
  [.acquire 1 0, .call 1 0 10 { Resources.all with pBase := false }, .release 1 0 1]

theorem not_failures_contained_one :
    ¬ FailuresContained ℕ ℕ 1 (elements 1 1024) fun _ => false := by
  intro hc
  obtain ⟨s, hrun, hs⟩ := Option.map_eq_some_iff.mp
    (show ((system ℕ ℕ 1 (elements 1 1024) fun _ => false).runIf (Others 1)
        (State.initial (elements 1 1024)) failingBatch).map
          (fun s => (s.place, s.slices, s.sessions.calls 0))
        = some (.release 0, [[0]], [none]) by rfl)
  have hreach := (TransitionSystem.ReachableIf.init rfl).runIf hrun
  have hrel : Releasing 1 _ (fun _ => false) 0 [0] [none] s :=
    ⟨following hreach, congrArg Prod.fst hs, ⟨[], congrArg (·.2.1) hs⟩, congrArg (·.2.2) hs⟩
  exact hrel.hangs (by decide) (fun q hq => by cases hq)
    ((hc s hreach).1 0 (congrArg Prod.fst hs))

end Slices

end Ipcl.HeQat
