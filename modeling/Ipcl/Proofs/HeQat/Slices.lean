/-
A failed call hangs the batch.

A release goes on as long as there is a request in the slot it is at, and it is told the
number of calls.  So it comes to its end exactly when every call of the slice has queued a
request and the ring had room for all of them: otherwise it arrives at an empty slot, which
nobody will fill while it waits, and reads it for ever.

What makes the positive half work is that the session on a buffer is the affair of the
thread that holds it.  The others may delay the answers, but once these are there nothing
else can be in the way, and every round brings the release nearer to its end.
-/
import Ipcl.HeQat.Slices
import Ipcl.Proofs.HeQat.Sessions

namespace Ipcl.HeQat

variable {τ ι : Type} [DecidableEq τ] [DecidableEq ι]

/-! ### A session among others -/

namespace Sessions.Sound

variable {s s' : State τ ι} (h : Sound s)
include h

/-- What another thread does leaves the session on a buffer alone. -/
theorem elsewhere {t : τ} {i : ℕ} (hmem : (t, i) ∈ s.runtime.held) {a : Action τ ι}
    (ha : a.thread ≠ some t) (hs : Sessions.step s a = .ok s') :
    (t, i) ∈ s'.runtime.held ∧ s'.calls i = s.calls i ∧ s'.walk i = s.walk i := by
  have hother : ∀ {u : τ} {j : ℕ}, u ≠ t → (u, j) ∈ s.runtime.held → i ≠ j := by
    rintro u j hne hj rfl
    exact hne (h.traced.owned.holder_unique hj hmem)
  cases a with
  | acquire u bufferId =>
      obtain ⟨runtime, hr, hs⟩ := Section.bind_eq_ok.mp hs
      cases hs
      obtain ⟨id, o, -, rfl⟩ := acquire_ok h.traced.owned hr
      exact ⟨List.mem_cons_of_mem _ hmem, rfl, rfl⟩
  | call u bufferId ref a =>
      obtain ⟨hu, -, ⟨-, rfl⟩ | ⟨request, runtime, -, hr, rfl⟩⟩ := call_ok hs
      · have hne := hother (fun hc => ha (congrArg some hc)) hu
        exact ⟨hmem, Function.update_of_ne hne _ _, rfl⟩
      · have hne := hother (fun hc => ha (congrArg some hc)) hu
        obtain ⟨-, rfl⟩ := submit_ok hr
        exact ⟨hmem, Function.update_of_ne hne _ _, rfl⟩
  | background a =>
      obtain ⟨runtime, hr, hs⟩ := Section.bind_eq_ok.mp hs
      cases hs
      exact ⟨(background_behind hr).held ▸ hmem, rfl, rfl⟩
  | callback r out =>
      obtain ⟨-, -, request, -, rfl⟩ := callback_ok hs
      exact ⟨hmem, rfl, rfl⟩
  | release u bufferId batchSize =>
      obtain ⟨hu, -, rfl⟩ := enter_ok hs
      have hne := hother (fun hc => ha (congrArg some hc)) hu
      exact ⟨hmem, rfl, Function.update_of_ne hne _ _⟩
  | look u bufferId =>
      obtain ⟨hu, w, -, -, -, rfl⟩ := look_ok hs
      have hne := hother (fun hc => ha (congrArg some hc)) hu
      exact ⟨hmem, rfl, Function.update_of_ne hne _ _⟩
  | finish u bufferId =>
      obtain ⟨hu, w, r, -, -, -, rfl⟩ := h.finish_ok hs
      have hne := hother (fun hc => ha (congrArg some hc)) hu
      exact ⟨hmem, rfl, Function.update_of_ne hne _ _⟩
  | giveBack u bufferId =>
      obtain ⟨hu, w, o, -, -, -, rfl⟩ := h.giveBack_effect hs
      have hne := hother (fun hc => ha (congrArg some hc)) hu
      exact ⟨(List.mem_erase_of_ne fun hc => hne (congrArg Prod.snd hc)).mpr hmem,
        Function.update_of_ne hne _ _, Function.update_of_ne hne _ _⟩

/-- Submissions and answers stay. -/
theorem grows {a : Action τ ι} (hs : Sessions.step s a = .ok s') :
    (∀ r ∈ s.runtime.submitted, r ∈ s'.runtime.submitted) ∧
      ∀ r out, s.answer r = some out → s'.answer r = some out := by
  cases a with
  | acquire u bufferId =>
      obtain ⟨runtime, hr, hs⟩ := Section.bind_eq_ok.mp hs
      cases hs
      obtain ⟨id, o, -, rfl⟩ := acquire_ok h.traced.owned hr
      exact ⟨fun r hr => hr, fun r out hr => hr⟩
  | call u bufferId ref a =>
      obtain ⟨-, -, ⟨-, rfl⟩ | ⟨request, runtime, -, hr, rfl⟩⟩ := call_ok hs
      · exact ⟨fun r hr => hr, fun r out hr => hr⟩
      · obtain ⟨-, rfl⟩ := submit_ok hr
        exact ⟨fun r hr => List.mem_append_left _ hr, fun r out hr => hr⟩
  | background a =>
      obtain ⟨runtime, hr, hs⟩ := Section.bind_eq_ok.mp hs
      cases hs
      exact ⟨fun r hr' => (background_behind hr).submitted ▸ hr', fun r out hr => hr⟩
  | callback r out =>
      obtain ⟨-, hanswer, request, -, rfl⟩ := callback_ok hs
      refine ⟨fun q hq => hq, fun q out' hq => ?_⟩
      have hne : q ≠ r := by
        rintro rfl
        rw [hanswer] at hq
        cases hq
      exact (Function.update_of_ne hne _ _).trans hq
  | release u bufferId batchSize =>
      obtain ⟨-, -, rfl⟩ := enter_ok hs
      exact ⟨fun r hr => hr, fun r out hr => hr⟩
  | look u bufferId =>
      obtain ⟨-, w, -, -, -, rfl⟩ := look_ok hs
      exact ⟨fun r hr => hr, fun r out hr => hr⟩
  | finish u bufferId =>
      obtain ⟨hu, w, r, -, -, -, rfl⟩ := h.finish_ok hs
      exact ⟨fun r hr => hr, fun r out hr => hr⟩
  | giveBack u bufferId =>
      obtain ⟨hu, w, o, -, -, -, rfl⟩ := h.giveBack_effect hs
      exact ⟨fun r hr => hr, fun r out hr => hr⟩

/-! ### The steps of a release are enabled -/

variable {t : τ} {bufferId : ℕ} {w : Walk (Request ι)}

theorem look_run (hmem : (t, bufferId) ∈ s.runtime.held) (hw : s.walk bufferId = some w)
    (htask : w.task = none) (hj : w.j < w.batchSize) :
    Sessions.step s (.look t bufferId) = .ok (Sessions.looked s bufferId w) := by
  have hsession := h.session bufferId (h.lt_of_held hmem)
  rw [hw] at hsession
  have hlt : w.nextDataOut < bufferSize := by
    rw [(hsession.walk w rfl).place]
    exact hsession.filled.slot_lt _
  have hwait : ¬ (w.task.isSome ∨ w.j ≥ w.batchSize) := by
    rw [htask]
    simpa using hj
  rw [Sessions.step, releasing_run hmem hw, look, waitWhile_ok hwait, Section.bind_ok,
    load_ok (h.lt_of_held hmem), Section.bind_ok, load_ok hlt]
  rfl

theorem finish_run (hmem : (t, bufferId) ∈ s.runtime.held) (hw : s.walk bufferId = some w)
    {r : Request ι} (hr : w.task = some r) (hanswer : (s.answer r).isSome) :
    Sessions.step s (.finish t bufferId) = .ok (Sessions.finished s bufferId w r) := by
  rw [Sessions.step, releasing_run hmem hw]
  exact (h.finish_iff (h.lt_of_held hmem) hw).mpr ⟨r, hr, hanswer, rfl⟩

theorem giveBack_run (hmem : (t, bufferId) ∈ s.runtime.held) (hw : s.walk bufferId = some w)
    (hj : w.batchSize ≤ w.j) :
    ∃ runtime, Sessions.step s (.giveBack t bufferId)
      = .ok (Sessions.handed s runtime bufferId) := by
  have htraced := h.traced.set_out (h.lt_of_held hmem) w.nextDataOut
  obtain ⟨runtime, hr⟩ := release_run htraced.owned hmem
  refine ⟨runtime, ?_⟩
  have hrelease : Runtime.step (s.withBuffer bufferId
      { s.runtime.outstanding.buffer bufferId with nextDataOut := w.nextDataOut }).runtime
      (.release t bufferId) = .ok runtime := hr
  rw [Sessions.step, releasing_run hmem hw, giveBack, waitWhile_ok (by omega), Section.bind_ok,
    load_ok (h.lt_of_held hmem), Section.bind_ok]
  simp only [hrelease, Section.bind_ok]
  rfl

end Sessions.Sound

namespace Slices

open Sessions (Action)

/-! ### What the function does next -/

omit [DecidableEq τ] [DecidableEq ι] in
/-- The steps of the thread that is in the function. -/
inductive Follows (ok : ℕ → Bool) (s : State τ ι) (s' : Sessions.State τ ι) :
    Action τ ι → State τ ι → Prop
  | acquire {v : τ} {slice : List ℕ} {rest : List (List ℕ)} (hplace : s.place = .acquire)
      (hslices : s.slices = slice :: rest) :
      Follows ok s s' (.acquire v 0)
        { s with sessions := s', place := .call (acquired s') 0 }
  | call {v : τ} {id i e : ℕ} {ref : ι} {resources : Resources} {slice : List ℕ}
      {rest : List (List ℕ)} (hplace : s.place = .call id i) (hslices : s.slices = slice :: rest)
      (he : slice[i]? = some e) (hok : (packRequest resources).isOk = ok e) :
      Follows ok s s' (.call v id ref resources)
        { s with sessions := s', place := .call id (i + 1) }
  | release {v : τ} {id : ℕ} {slice : List ℕ} {rest : List (List ℕ)}
      (hplace : s.place = .call id slice.length) (hslices : s.slices = slice :: rest) :
      Follows ok s s' (.release v id slice.length) { s with sessions := s', place := .release id }
  | look {v : τ} {id : ℕ} (hplace : s.place = .release id) :
      Follows ok s s' (.look v id) { s with sessions := s' }
  | finish {v : τ} {id : ℕ} (hplace : s.place = .release id) :
      Follows ok s s' (.finish v id) { s with sessions := s' }
  | giveBack {v : τ} {id : ℕ} {slice : List ℕ} {rest : List (List ℕ)}
      (hplace : s.place = .release id) (hslices : s.slices = slice :: rest) :
      Follows ok s s' (.giveBack v id)
        { sessions := s'
          place := .acquire
          slices := rest
          remainder := s.remainder ++ readBack s.sessions id slice }

omit [DecidableEq τ] [DecidableEq ι] in
theorem follows {ok : ℕ → Bool} {s u : State τ ι} {s' : Sessions.State τ ι} {a : Action τ ι}
    (h : follow ok s s' a = some u) : Follows ok s s' a u := by
  unfold follow at h
  split at h
  case h_1 hplace hslices =>
    obtain ⟨rfl, hu⟩ := Option.ite_none_right_eq_some.mp h
    cases hu
    exact .acquire hplace hslices
  case h_2 id i slice rest v bufferId ref resources hplace hslices =>
    obtain ⟨⟨rfl, hok⟩, hu⟩ := Option.ite_none_right_eq_some.mp h
    cases hu
    obtain ⟨e, he, hoke⟩ := Option.map_eq_some_iff.mp hok
    exact .call hplace hslices he hoke.symm
  case h_3 hplace hslices =>
    obtain ⟨⟨rfl, rfl, rfl⟩, hu⟩ := Option.ite_none_right_eq_some.mp h
    cases hu
    exact .release hplace hslices
  case h_4 hplace hslices =>
    obtain ⟨rfl, hu⟩ := Option.ite_none_right_eq_some.mp h
    cases hu
    exact .look hplace
  case h_5 hplace hslices =>
    obtain ⟨rfl, hu⟩ := Option.ite_none_right_eq_some.mp h
    cases hu
    exact .finish hplace
  case h_6 hplace hslices =>
    obtain ⟨rfl, hu⟩ := Option.ite_none_right_eq_some.mp h
    cases hu
    exact .giveBack hplace hslices
  case h_7 => cases h

/-- A step is one of the function, or one of the sessions beside it. -/
theorem step_inv {t : τ} {ok : ℕ → Bool} {s u : State τ ι} {a : Action τ ι}
    (hs : Slices.step t ok s a = some u) :
    ∃ s', Sessions.step s.sessions a = .ok s' ∧
      (a.thread = some t ∧ Follows ok s s' a u ∨
        a.thread ≠ some t ∧ u = { s with sessions := s' }) := by
  rw [Slices.step] at hs
  cases hstep : Sessions.step s.sessions a with
  | error e =>
      rw [hstep] at hs
      cases hs
  | ok s' =>
      rw [hstep] at hs
      refine ⟨s', rfl, ?_⟩
      by_cases ha : a.thread = some t
      · simp only [if_pos ha] at hs
        exact Or.inl ⟨ha, follows hs⟩
      · simp only [if_neg ha] at hs
        exact Or.inr ⟨ha, (Option.some.inj hs).symm⟩

omit [DecidableEq τ] in
/-- The session on the buffer is that of the slice in progress. -/
def Linked (t : τ) (ok : ℕ → Bool) (s : Sessions.State τ ι) (slices : List (List ℕ)) : At → Prop
  | .acquire => True
  | .call id i => (t, id) ∈ s.runtime.held ∧ s.walk id = none ∧
      ∃ slice rest, slices = slice :: rest ∧ i ≤ slice.length ∧
        (s.calls id).map Option.isSome = (slice.take i).map ok
  | .release id => (t, id) ∈ s.runtime.held ∧ (∃ w, s.walk id = some w) ∧
      ∃ slice rest, slices = slice :: rest ∧ (s.calls id).map Option.isSome = slice.map ok

theorem Linked.elsewhere {t : τ} {ok : ℕ → Bool} {s s' : Sessions.State τ ι}
    {slices : List (List ℕ)} {place : At} (hl : Linked t ok s slices place)
    (h : Sessions.Sound s) {a : Action τ ι} (ha : a.thread ≠ some t)
    (hs : Sessions.step s a = .ok s') : Linked t ok s' slices place := by
  cases place with
  | acquire => trivial
  | call id i =>
      obtain ⟨hmem, hwalk, hslice⟩ := hl
      obtain ⟨hmem', hcalls, hwalk'⟩ := h.elsewhere hmem ha hs
      exact ⟨hmem', hwalk'.trans hwalk, hcalls ▸ hslice⟩
  | release id =>
      obtain ⟨hmem, hwalk, hslice⟩ := hl
      obtain ⟨hmem', hcalls, hwalk'⟩ := h.elsewhere hmem ha hs
      exact ⟨hmem', hwalk' ▸ hwalk, hcalls ▸ hslice⟩

/-- What holds of the sessions and of the function in every state reached. -/
structure Following (t : τ) (slices : List (List ℕ)) (ok : ℕ → Bool) (s : State τ ι) : Prop where
  sessions : Sessions.Sound s.sessions
  suffix : s.slices <:+ slices
  linked : Linked t ok s.sessions s.slices s.place
  values : ValuesAnswered s

namespace Following

variable {t : τ} {slices : List (List ℕ)} {ok : ℕ → Bool}

omit [DecidableEq τ] in
theorem initial : Following t slices ok (State.initial slices : State τ ι) where
  sessions := Sessions.Sound.initial
  suffix := List.suffix_rfl
  linked := trivial
  values v hv := by cases hv

variable {s u : State τ ι} {s' : Sessions.State τ ι} {a : Action τ ι}
  (h : Following t slices ok s)
include h

/-- What has been read back stays as it is. -/
theorem values_step (hs : Sessions.step s.sessions a = .ok s') :
    ∀ v ∈ s.remainder, ∃ r out, v.request = some r ∧ r ∈ s'.runtime.submitted ∧
      s'.answer r = some out ∧ v.octets = some out := by
  intro v hv
  obtain ⟨r, out, hr, hsub, hanswer, hout⟩ := h.values v hv
  obtain ⟨hsubs, hanswers⟩ := h.sessions.grows hs
  exact ⟨r, out, hr, hsubs r hsub, hanswers r out hanswer, hout⟩

/-- Another thread takes a step. -/
theorem other (hplan : Sessions.Planned s.sessions a) (ha : a.thread ≠ some t)
    (hs : Sessions.step s.sessions a = .ok s') :
    Following t slices ok { s with sessions := s' } where
  sessions := h.sessions.step hplan hs
  suffix := h.suffix
  linked := h.linked.elsewhere h.sessions ha hs
  values := h.values_step hs

omit [DecidableEq τ] in
/-- Before call `i` of a slice, the calls made are those before it, as the pattern says. -/
theorem calls_at {id i : ℕ} {slice : List ℕ} {rest : List (List ℕ)}
    (hplace : s.place = .call id i) (hslices : s.slices = slice :: rest) :
    (s.sessions.calls id).map Option.isSome = (slice.take i).map ok := by
  have hlinked := h.linked
  rw [hplace, hslices] at hlinked
  obtain ⟨-, -, slice', rest', hcons, -, hcalls⟩ := hlinked
  cases hcons
  exact hcalls

omit [DecidableEq τ] in
/-- The release of a slice is told of the calls made. -/
theorem planned (hf : Follows ok s s' a u) : Sessions.Planned s.sessions a := by
  cases hf with
  | acquire hplace hslices => trivial
  | call hplace hslices he hok => trivial
  | look hplace => trivial
  | finish hplace => trivial
  | giveBack hplace hslices => trivial
  | @release v id slice rest hplace hslices =>
      have hlen := congrArg List.length (h.calls_at hplace hslices)
      rw [List.length_map, List.length_map, List.take_length] at hlen
      exact hlen.symm

theorem own_acquire {slice : List ℕ} {rest : List (List ℕ)} (hslices : s.slices = slice :: rest)
    {runtime : Runtime.State τ ι}
    (hr : Runtime.step s.sessions.runtime (.acquire t 0) = .ok runtime) :
    Following t slices ok { s with
      sessions := { s.sessions with runtime := runtime }
      place := .call (acquired { s.sessions with runtime := runtime }) 0 } := by
  have hsound := h.sessions.acquire hr
  obtain ⟨id, o, -, rfl⟩ := Sessions.acquire_ok h.sessions.traced.owned hr
  -- the buffer was not held before
  have hnodup := hsound.traced.owned.nodup
  rw [List.map_cons, List.nodup_cons] at hnodup
  obtain ⟨hcalls, hwalk⟩ := h.sessions.idle id hnodup.1
  exact {
    sessions := hsound
    suffix := h.suffix
    linked := ⟨List.mem_cons_self, hwalk, slice, rest, hslices, Nat.zero_le _, by
      show (s.sessions.calls id).map Option.isSome = _
      rw [hcalls]
      rfl⟩
    values := h.values }

theorem own_call {id i e : ℕ} {ref : ι} {resources : Resources} {slice : List ℕ}
    {rest : List (List ℕ)} (hplace : s.place = .call id i) (hslices : s.slices = slice :: rest)
    (he : slice[i]? = some e) (hok : (packRequest resources).isOk = ok e)
    (hs : Sessions.step s.sessions (.call t id ref resources) = .ok s') :
    Following t slices ok { s with sessions := s', place := .call id (i + 1) } where
  sessions := h.sessions.step (a := .call t id ref resources) trivial hs
  suffix := h.suffix
  linked := by
    have hcalls := h.calls_at hplace hslices
    obtain ⟨hlt, hget⟩ := List.getElem?_eq_some_iff.mp he
    have htake : (slice.take (i + 1)).map ok = (slice.take i).map ok ++ [ok e] := by
      rw [← List.take_append_getElem hlt, List.map_append, hget]
      rfl
    have hmap : ∀ c : Option (Request ι), c.isSome = ok e →
        (s.sessions.calls id ++ [c]).map Option.isSome = (slice.take (i + 1)).map ok := by
      intro c hc
      rw [htake, List.map_append, hcalls, List.map_singleton, hc]
    obtain ⟨hmem, hwalk, ⟨hfail, rfl⟩ | ⟨request, runtime, hp, hr, rfl⟩⟩ := Sessions.call_ok hs
    · refine ⟨hmem, hwalk, slice, rest, hslices, hlt, ?_⟩
      show (Function.update s.sessions.calls id _ id).map Option.isSome = _
      rw [Function.update_self]
      exact hmap none (hfail.symm.trans hok)
    · obtain ⟨-, rfl⟩ := Sessions.submit_ok hr
      refine ⟨hmem, hwalk, slice, rest, hslices, hlt, ?_⟩
      show (Function.update s.sessions.calls id _ id).map Option.isSome = _
      rw [Function.update_self]
      refine hmap _ ?_
      rw [← hok, hp]
      rfl
  values := h.values_step hs

theorem own_release {id : ℕ} {slice : List ℕ} {rest : List (List ℕ)}
    (hplace : s.place = .call id slice.length) (hslices : s.slices = slice :: rest)
    (hplan : Sessions.Planned s.sessions (.release t id slice.length))
    (hs : Sessions.step s.sessions (.release t id slice.length) = .ok s') :
    Following t slices ok { s with sessions := s', place := .release id } where
  sessions := h.sessions.step hplan hs
  suffix := h.suffix
  linked := by
    have hcalls := h.calls_at hplace hslices
    rw [List.take_length] at hcalls
    obtain ⟨hmem, -, rfl⟩ := Sessions.enter_ok hs
    exact ⟨hmem, ⟨_, Function.update_self ..⟩, slice, rest, hslices, hcalls⟩
  values := h.values_step hs

/-- A round of the release, or a part of one. -/
theorem own_round {id : ℕ} (hplace : s.place = .release id)
    (hplan : Sessions.Planned s.sessions a) (hs : Sessions.step s.sessions a = .ok s')
    (hheld : s'.runtime.held = s.sessions.runtime.held) (hcalls : s'.calls = s.sessions.calls)
    (hwalk : ∃ w, s'.walk id = some w) : Following t slices ok { s with sessions := s' } where
  sessions := h.sessions.step hplan hs
  suffix := h.suffix
  linked := by
    have hlinked := h.linked
    rw [hplace] at hlinked
    obtain ⟨hmem, -, hslice⟩ := hlinked
    show Linked t ok s' s.slices s.place
    rw [hplace]
    exact ⟨hheld ▸ hmem, hwalk, hcalls ▸ hslice⟩
  values := h.values_step hs

theorem own_giveBack {id : ℕ} {slice : List ℕ} {rest : List (List ℕ)}
    (hslices : s.slices = slice :: rest)
    (hs : Sessions.step s.sessions (.giveBack t id) = .ok s') :
    Following t slices ok {
      sessions := s'
      place := .acquire
      slices := rest
      remainder := s.remainder ++ readBack s.sessions id slice } where
  sessions := h.sessions.step (a := .giveBack t id) trivial hs
  suffix := ((List.suffix_cons slice rest).trans (hslices ▸ List.suffix_rfl)).trans h.suffix
  linked := trivial
  values := by
    intro v hv
    rcases List.mem_append.mp hv with hv | hv
    · exact h.values_step hs v hv
    -- a value of the slice just done
    obtain ⟨⟨e, c⟩, hmem, rfl⟩ := List.mem_map.mp hv
    have hc : c ∈ s.sessions.calls id := (List.of_mem_zip hmem).2
    obtain ⟨hheld, w, hw, -⟩ := Sessions.giveBack_ok hs
    obtain ⟨w', hw', hback⟩ := h.sessions.handed_back hs
    have hsession := h.sessions.session id (h.sessions.lt_of_held hheld)
    have hplanned := (hsession.walk w' hw').planned
    have hlen : (s.sessions.calls id).reduceOption.length = (s.sessions.calls id).length :=
      hback.quantity.symm.trans hplanned
    obtain ⟨r, rfl⟩ := Option.isSome_iff_exists.mp
      (List.reduceOption_length_eq_iff.mp hlen c hc)
    have hr : r ∈ s.sessions.queued id := List.reduceOption_mem_iff.mpr hc
    obtain ⟨out, hanswer, houtput⟩ := hback.completed r hr
    obtain ⟨hsubs, hanswers⟩ := h.sessions.grows hs
    exact ⟨r, out, rfl, hsubs r (hsession.submitted r hr).2, hanswers r out hanswer, houtput⟩

/-- The thread in the function takes a step. -/
theorem own (hf : Follows ok s s' a u) (ha : a.thread = some t)
    (hs : Sessions.step s.sessions a = .ok s') : Following t slices ok u := by
  have hplan := h.planned hf
  cases hf with
  | acquire hplace hslices =>
      cases ha
      obtain ⟨runtime, hr, hs⟩ := Section.bind_eq_ok.mp hs
      cases hs
      exact h.own_acquire hslices hr
  | call hplace hslices he hok =>
      cases ha
      exact h.own_call hplace hslices he hok hs
  | release hplace hslices =>
      cases ha
      exact h.own_release hplace hslices hplan hs
  | look hplace =>
      obtain ⟨hmem, w, -, -, -, rfl⟩ := Sessions.look_ok hs
      exact h.own_round hplace hplan hs rfl rfl ⟨_, Function.update_self ..⟩
  | finish hplace =>
      obtain ⟨hmem, w, r, -, -, -, rfl⟩ := h.sessions.finish_ok hs
      exact h.own_round hplace hplan hs rfl rfl ⟨_, Function.update_self ..⟩
  | giveBack hplace hslices =>
      cases ha
      exact h.own_giveBack hslices hs

theorem step (hplan : Others t s a) (hs : Slices.step t ok s a = some u) :
    Following t slices ok u := by
  obtain ⟨s', hstep, ⟨ha, hf⟩ | ⟨ha, rfl⟩⟩ := step_inv hs
  · exact h.own hf ha hstep
  · exact h.other (hplan.resolve_left ha) ha hstep

omit h in
theorem step_sessions (hs : Slices.step t ok s a = some u) :
    ∃ s', Sessions.step s.sessions a = .ok s' ∧ u.sessions = s' := by
  obtain ⟨s', hstep, ⟨-, hf⟩ | ⟨-, rfl⟩⟩ := step_inv hs
  · refine ⟨s', hstep, ?_⟩
    cases hf <;> rfl
  · exact ⟨s', hstep, rfl⟩

/-- An answer stays. -/
theorem answer_step (hs : Slices.step t ok s a = some u) {q : Request ι} {out : List ℕ}
    (hout : s.sessions.answer q = some out) : (u.sessions.answer q).isSome := by
  obtain ⟨s', hstep, hu⟩ := step_sessions hs
  rw [hu, (h.sessions.grows hstep).2 q out hout]
  rfl

end Following

theorem following {t : τ} {slices : List (List ℕ)} {ok : ℕ → Bool} {s : State τ ι}
    (h : (system τ ι t slices ok).ReachableIf (Others t) s) : Following t slices ok s := by
  refine h.invariant ?_ fun s a s' hs hplan hstep => hs.step hplan hstep
  rintro _ rfl
  exact Following.initial

/-! ### One release -/

/-- The thread is in the release of a slice, for which it has made the calls. -/
structure Releasing (t : τ) (slices : List (List ℕ)) (ok : ℕ → Bool) (id : ℕ) (slice : List ℕ)
    (calls : List (Option (Request ι))) (s : State τ ι) : Prop where
  following : Following t slices ok s
  place : s.place = .release id
  head : ∃ rest, s.slices = slice :: rest
  calls_eq : s.sessions.calls id = calls

/-- The rounds of a release that are left, in halves. -/
def toGo {ρ : Type} : Option (Walk ρ) → ℕ
  | none => 0
  | some w => 2 * (w.batchSize - w.j) + if w.task.isSome then 0 else 1

namespace Releasing

variable {t : τ} {slices : List (List ℕ)} {ok : ℕ → Bool} {id : ℕ} {slice : List ℕ}
  {calls : List (Option (Request ι))} {s u : State τ ι}
  (h : Releasing t slices ok id slice calls s)
include h

omit [DecidableEq τ] in
theorem held : (t, id) ∈ s.sessions.runtime.held := by
  have hlinked := h.following.linked
  rw [h.place] at hlinked
  exact hlinked.1

omit [DecidableEq τ] in
theorem exists_walk : ∃ w, s.sessions.walk id = some w ∧
    Sessions.Session id (s.sessions.runtime.outstanding.buffer id) calls (some w)
      s.sessions.runtime.submitted s.sessions.freed := by
  have hlinked := h.following.linked
  rw [h.place] at hlinked
  obtain ⟨hmem, ⟨w, hw⟩, -⟩ := hlinked
  have hsession := h.following.sessions.session id (h.following.sessions.lt_of_held hmem)
  rw [h.calls_eq, hw] at hsession
  exact ⟨w, hw, hsession⟩

omit [DecidableEq τ] in
/-- Which calls have queued a request is as the pattern says. -/
theorem pattern : calls.map Option.isSome = slice.map ok := by
  have hlinked := h.following.linked
  rw [h.place] at hlinked
  obtain ⟨-, -, slice', rest', hcons, hcalls⟩ := hlinked
  obtain ⟨rest, hrest⟩ := h.head
  rw [hrest] at hcons
  cases hcons
  rw [← hcalls, h.calls_eq]

omit [DecidableEq τ] in
/-- Every call has queued a request, and there was room for all of them. -/
theorem good_iff : slice.length ≤ bufferSize ∧ (∀ e ∈ slice, ok e = true) ↔
    calls.length ≤ bufferSize ∧ calls.reduceOption.length = calls.length := by
  have hlen := congrArg List.length h.pattern
  rw [List.length_map, List.length_map] at hlen
  have hall : (∀ e ∈ slice, ok e = true) ↔ ∀ c ∈ calls, c.isSome = true := by
    rw [← List.forall_mem_map (P := fun x => x = true), ← h.pattern, List.forall_mem_map]
  rw [hall, ← List.reduceOption_length_eq_iff, hlen]

/-- What a step can do while the thread is in the release. -/
theorem step_cases {a : Action τ ι} (hplan : Others t s a) (hs : Slices.step t ok s a = some u) :
    (u.place ≠ .release id ∧ ∃ w, s.sessions.walk id = some w ∧ w.batchSize ≤ w.j) ∨
      Releasing t slices ok id slice calls u ∧
        (a.thread ≠ some t ∧ u.sessions.walk id = s.sessions.walk id ∨
          ∃ w, s.sessions.walk id = some w ∧
            (w.task = none ∧ w.j < w.batchSize ∧ u.sessions.walk id = some { w with
                task := (s.sessions.runtime.outstanding.buffer id).data w.nextDataOut } ∨
              ∃ r, w.task = some r ∧ u.sessions.walk id = some { w with
                nextDataOut := (w.nextDataOut + 1) % bufferSize
                j := w.j + 1
                task := none
                freed := w.freed ++ [r] })) := by
  have hafter := h.following.step hplan hs
  obtain ⟨s', hstep, ⟨ha, hf⟩ | ⟨ha, rfl⟩⟩ := step_inv hs
  · cases hf with
    | acquire hplace hslices => rw [h.place] at hplace; cases hplace
    | call hplace hslices he hok => rw [h.place] at hplace; cases hplace
    | release hplace hslices => rw [h.place] at hplace; cases hplace
    | look hplace =>
        rw [h.place] at hplace
        cases hplace
        obtain ⟨hmem, w, hw, htask, hj, rfl⟩ := Sessions.look_ok hstep
        refine Or.inr ⟨⟨hafter, h.place, h.head, h.calls_eq⟩, Or.inr ⟨w, hw, Or.inl ?_⟩⟩
        exact ⟨htask, hj, Function.update_self ..⟩
    | finish hplace =>
        rw [h.place] at hplace
        cases hplace
        obtain ⟨hmem, w, r, hw, hr, -, rfl⟩ := h.following.sessions.finish_ok hstep
        refine Or.inr ⟨⟨hafter, h.place, h.head, h.calls_eq⟩, Or.inr ⟨w, hw, Or.inr ?_⟩⟩
        exact ⟨r, hr, Function.update_self ..⟩
    | giveBack hplace hslices =>
        rw [h.place] at hplace
        cases hplace
        obtain ⟨-, w, hw, hj, -⟩ := Sessions.giveBack_ok hstep
        exact Or.inl ⟨by simp, w, hw, hj⟩
  · obtain ⟨-, hcalls, hwalk⟩ := h.following.sessions.elsewhere h.held ha hstep
    exact Or.inr ⟨⟨hafter, h.place, h.head, hcalls.trans h.calls_eq⟩, Or.inl ⟨ha, hwalk⟩⟩

omit h in
/-- Steps of the sessions that the function takes as its own. -/
theorem step_run {a : Action τ ι} (ha : a.thread = some t) {s' : Sessions.State τ ι}
    (hs : Sessions.step s.sessions a = .ok s')
    (hfollow : (follow ok s s' a).isSome) : (Slices.step t ok s a).isSome := by
  rw [Slices.step, hs]
  simp only [if_pos ha]
  exact hfollow

/-- When the requests have been answered, the thread is not held up. -/
theorem enabled (hanswer : ∀ q ∈ calls.reduceOption, (s.sessions.answer q).isSome) :
    ∃ a : Action τ ι, a.thread = some t ∧ (Slices.step t ok s a).isSome := by
  obtain ⟨w, hw, hsession⟩ := h.exists_walk
  obtain ⟨rest, hrest⟩ := h.head
  have hsound := h.following.sessions
  cases htask : w.task with
  | some r =>
      obtain ⟨-, -, hqueued, -⟩ := hsound.at_slot (hsound.lt_of_held h.held) hw htask
      rw [Sessions.State.queued, h.calls_eq] at hqueued
      refine ⟨.finish t id, rfl, step_run rfl
        (hsound.finish_run h.held hw htask (hanswer r hqueued)) ?_⟩
      simp [follow, h.place, hrest]
  | none =>
      by_cases hj : w.j < w.batchSize
      · refine ⟨.look t id, rfl, step_run rfl (hsound.look_run h.held hw htask hj) ?_⟩
        simp [follow, h.place, hrest]
      · obtain ⟨runtime, hr⟩ := hsound.giveBack_run h.held hw (Nat.le_of_not_lt hj)
        refine ⟨.giveBack t id, rfl, step_run rfl hr ?_⟩
        simp [follow, h.place, hrest]

/-- What has been answered stays so. -/
theorem answered_step {a : Action τ ι} (hs : Slices.step t ok s a = some u)
    (hanswer : ∀ q ∈ calls.reduceOption, (s.sessions.answer q).isSome) :
    ∀ q ∈ calls.reduceOption, (u.sessions.answer q).isSome := by
  intro q hq
  obtain ⟨out, hout⟩ := Option.isSome_iff_exists.mp (hanswer q hq)
  exact h.following.answer_step hs hout

/-- A release for which every request was queued gets nearer to its end with every step of its
thread, and no other thread takes it away from there. -/
theorem nearer (hgood : calls.length ≤ bufferSize ∧ calls.reduceOption.length = calls.length)
    {a : Action τ ι} (hplan : Others t s a) (hs : Slices.step t ok s a = some u) :
    u.place ≠ .release id ∨ Releasing t slices ok id slice calls u ∧
      toGo (u.sessions.walk id) ≤ toGo (s.sessions.walk id) ∧
      (a.thread = some t → toGo (u.sessions.walk id) < toGo (s.sessions.walk id)) := by
  obtain ⟨w, hw, hsession⟩ := h.exists_walk
  have hok := hsession.walk w rfl
  rcases h.step_cases hplan hs with ⟨hleft, -⟩ | ⟨hu, ⟨ha, hsame⟩ | ⟨w', hw', hround⟩⟩
  · exact Or.inl hleft
  · exact Or.inr ⟨hu, hsame ▸ le_rfl, fun hc => absurd hc ha⟩
  · rw [hw] at hw'
    cases hw'
    refine Or.inr ⟨hu, ?_⟩
    rw [hw]
    suffices hlt : toGo (u.sessions.walk id) < toGo (some w) from ⟨hlt.le, fun _ => hlt⟩
    rcases hround with ⟨htask, hj, hnext⟩ | ⟨r, htask, hnext⟩
    · -- the slot is not empty
      have hlen : w.j < calls.reduceOption.length := by
        rw [hgood.2, ← hok.planned]
        exact hj
      have hslot : (s.sessions.runtime.outstanding.buffer id).data w.nextDataOut
          = some calls.reduceOption[w.j] := by
        rw [hok.place]
        exact hsession.filled.next_some (hgood.2.trans_le hgood.1) hlen
      rw [hnext, hslot]
      simp [toGo, htask]
    · have hj := (hok.task r htask).2
      rw [hnext]
      simp only [toGo, htask, Option.isSome_none, Option.isSome_some, if_true]
      simp only [Bool.false_eq_true, if_false]
      omega

/-- It comes to its end. -/
theorem ends (hgood : calls.length ≤ bufferSize ∧ calls.reduceOption.length = calls.length) :
    ReleaseEnds t slices ok s id := by
  intro r hstart hfair hanswers
  by_contra hc
  push Not at hc
  rw [Sessions.State.queued, h.calls_eq] at hanswers
  -- the thread is in the release for ever
  have hstay : ∀ n, Releasing t slices ok id slice calls (r.state n) := by
    intro n
    induction n with
    | zero => exact hstart ▸ h
    | succ n ih =>
        rcases ih.step_cases (r.meets n) (r.step n) with ⟨hleft, -⟩ | ⟨hnext, -⟩
        · exact absurd (hc (n + 1)) hleft
        · exact hnext
  -- but the requests are all answered at some point
  obtain ⟨n, hn⟩ := r.eventually_all (P := fun q s => (s.sessions.answer q).isSome)
    (fun q n m hnm hq => by
      induction hnm with
      | refl => exact hq
      | step _ ih =>
          obtain ⟨out, hout⟩ := Option.isSome_iff_exists.mp ih
          exact (hstay _).following.answer_step (r.step _) hout)
    hanswers
  obtain ⟨m, hm⟩ := r.reaches hfair
    (fun s => Releasing t slices ok id slice calls s ∧
      ∀ q ∈ calls.reduceOption, (s.sessions.answer q).isSome)
    (fun s => s.place ≠ .release id) (fun s => toGo (s.sessions.walk id))
    (fun s a u hI hplan hs => (hI.1.nearer hgood hplan hs).imp_right fun hu =>
      ⟨⟨hu.1, hI.1.answered_step hs hI.2⟩, hu.2⟩)
    (fun s hI => hI.1.enabled hI.2) ⟨hstay n, hn⟩
  exact hm (hc m)

/-- A release that has nothing left to wait for does not come to its end otherwise. -/
theorem hangs (hbad : ¬ (calls.length ≤ bufferSize ∧ calls.reduceOption.length = calls.length))
    (hanswer : ∀ q ∈ calls.reduceOption, (s.sessions.answer q).isSome) :
    ¬ ReleaseEnds t slices ok s id := by
  have hnext : ∀ s : State τ ι, (Releasing t slices ok id slice calls s ∧
      ∀ q ∈ calls.reduceOption, (s.sessions.answer q).isSome) →
      ∃ a u, a.thread = some t ∧ Others t s a ∧ (system τ ι t slices ok).step s a = some u ∧
        Releasing t slices ok id slice calls u ∧
          ∀ q ∈ calls.reduceOption, (u.sessions.answer q).isSome := by
    rintro s ⟨hs, hanswered⟩
    obtain ⟨a, ha, hsome⟩ := hs.enabled hanswered
    obtain ⟨u, hu⟩ := Option.isSome_iff_exists.mp hsome
    refine ⟨a, u, ha, Or.inl ha, hu, ?_, hs.answered_step hu hanswered⟩
    rcases hs.step_cases (Or.inl ha) hu with ⟨-, w, hw, hj⟩ | ⟨hstill, -⟩
    · -- only a release that has been through gives back its buffer
      obtain ⟨w', hw', hsession⟩ := hs.exists_walk
      rw [hw] at hw'
      cases hw'
      obtain ⟨hqueued, hsize, -⟩ := hsession.through hj
      exact absurd ⟨hsize, hqueued⟩ hbad
    · exact hstill
  intro hends
  obtain ⟨r, hstart, hfair, hJ⟩ := TransitionSystem.Run.exists_forever hnext ⟨h, hanswer⟩
  obtain ⟨n, hn⟩ := hends r hstart hfair fun q hq => by
    rw [Sessions.State.queued, h.calls_eq] at hq
    exact ⟨0, (hJ 0).2 q hq⟩
  exact hn (hJ n).1.place

end Releasing

end Slices

end Ipcl.HeQat
