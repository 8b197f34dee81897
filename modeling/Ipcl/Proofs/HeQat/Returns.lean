/-
The offloaded call returns.

The thread is held up in three places: where it wants a buffer, where its buffer has no slot
left, and where a request it waits for has not been answered.  The second does not occur, since
the buffer has a slot for every call of a slice.  The first is up to the other threads and the
third to the device.  If they do not keep it waiting for ever, and the scheduler of the system
lets it run, the thread works through its slices: each of its steps brings it nearer to the end,
and no other thread takes it away from there.
-/
import Ipcl.Proofs.HeQat.Failures
import Ipcl.Proofs.HeQat.Results

namespace Ipcl.HeQat

variable {τ ι : Type} [DecidableEq τ] [DecidableEq ι]

namespace Slices

open Sessions (Action)

variable {t : τ} {slices : List (List ℕ)} {ok : ℕ → Bool}

/-! ### What the thread can do -/

omit [DecidableEq τ] in
/-- A buffer on which fewer requests have been queued than it has slots is not full. -/
theorem room_of_queued {s : Sessions.State τ ι} (h : Sessions.Sound s) {id : ℕ}
    (hlt : id < bufferCount) (hwalk : s.walk id = none)
    (hroom : (s.queued id).length < bufferSize) {q : List (Request ι)}
    (hcarries : Carries (s.runtime.outstanding.buffer id) q) :
    (s.runtime.outstanding.buffer id).count < bufferSize := by
  have hsession := h.session id hlt
  rw [hwalk] at hsession
  -- the next slot is empty
  have hnone := (hsession.filled.rest hroom.le _ hroom (Nat.zero_le _)).trans
    (List.getElem?_eq_none le_rfl)
  refine hcarries.not_full (hsession.filled.slot_lt (s.queued id).length) ?_
  rw [hnone]
  simp

theorem submit_run {s : Sessions.State τ ι} (h : Sessions.Sound s) {id : ℕ}
    (hmem : (t, id) ∈ s.runtime.held) (hwalk : s.walk id = none)
    (hroom : (s.queued id).length < bufferSize) {ref : ι}
    (hnew : ⟨some id, ref⟩ ∉ s.runtime.submitted) :
    ∃ runtime, Runtime.step s.runtime (.submit t id ref) = .ok runtime := by
  have hlt := h.lt_of_held hmem
  obtain ⟨q, -, hR⟩ := h.traced
  have hcarries := hR.lanes id hlt
  have hcount := room_of_queued h hlt hwalk hroom hcarries
  have hwait : ¬ ((t, id) ∉ s.runtime.held ∨ ⟨some id, ref⟩ ∈ s.runtime.submitted) := by
    push Not
    exact ⟨hmem, hnew⟩
  obtain ⟨b, hb⟩ : ∃ b, submitRequest (s.runtime.outstanding.buffer id) ⟨some id, ref⟩ = .ok b :=
    ⟨_, submitRequest_run hcarries hcount _⟩
  refine ⟨{ s.runtime with
    outstanding := { s.runtime.outstanding with
      buffer := Function.update s.runtime.outstanding.buffer id b }
    submitted := s.runtime.submitted ++ [⟨some id, ref⟩] }, ?_⟩
  rw [Runtime.step, waitWhile_ok hwait, Section.bind_ok, Runtime.submitTo, load_ok hlt,
    Section.bind_ok, hb]
  rfl

/-- Every call of a slice queues a request, and the ring has room for them. -/
def Good (ok : ℕ → Bool) (slice : List ℕ) : Prop :=
  slice.length ≤ bufferSize ∧ ∀ e ∈ slice, ok e = true

instance (ok : ℕ → Bool) (slice : List ℕ) : Decidable (Good ok slice) := by
  unfold Good
  infer_instance

/-- The thread has something left to do, and nothing it does is bound to fail. -/
structure Going (t : τ) (slices : List (List ℕ)) (ok : ℕ → Bool) (s : State τ ι) : Prop where
  following : Following t slices ok s
  going : ∃ slice rest, s.slices = slice :: rest
  good : ∀ slice ∈ slices, Good ok slice

namespace Going

variable {s u : State τ ι} {a : Action τ ι} (h : Going t slices ok s)
include h

omit [DecidableEq τ] in
theorem good_head {slice : List ℕ} {rest : List (List ℕ)} (hslices : s.slices = slice :: rest) :
    Good ok slice :=
  h.good slice (h.following.suffix.subset (hslices ▸ List.mem_cons_self))

omit [DecidableEq τ] in
theorem releasing {id : ℕ} (hplace : s.place = .release id) {slice : List ℕ}
    {rest : List (List ℕ)} (hslices : s.slices = slice :: rest) :
    Releasing t slices ok id slice (s.sessions.calls id) s ∧
      (s.sessions.calls id).length ≤ bufferSize ∧
      (s.sessions.calls id).reduceOption.length = (s.sessions.calls id).length := by
  have hrel : Releasing t slices ok id slice (s.sessions.calls id) s :=
    ⟨h.following, hplace, ⟨rest, hslices⟩, rfl⟩
  exact ⟨hrel, hrel.good_iff.mp (h.good_head hslices)⟩

/-- Before each of its calls there is room, and a request to be made. -/
theorem call_enabled [Infinite ι] {id i : ℕ} (hplace : s.place = .call id i) :
    ∃ a : Action τ ι, a.thread = some t ∧ (Slices.step t ok s a).isSome := by
  obtain ⟨slice, rest, hslices⟩ := h.going
  have hlinked := h.following.linked
  rw [hplace, hslices] at hlinked
  obtain ⟨hmem, hwalk, slice', rest', hcons, hi, hcalls⟩ := hlinked
  cases hcons
  rcases Nat.lt_or_eq_of_le hi with hlt | rfl
  · -- a request that is new
    obtain ⟨ref, href⟩ := Infinite.exists_notMem_finset
      (s.sessions.runtime.submitted.map Request.ref).toFinset
    have hnew : (⟨some id, ref⟩ : Request ι) ∉ s.sessions.runtime.submitted := fun hc =>
      href (List.mem_toFinset.mpr (List.mem_map_of_mem hc))
    have hlen := congrArg List.length hcalls
    rw [List.length_map, List.length_map, List.length_take_of_le hi] at hlen
    have hroom : (s.sessions.queued id).length < bufferSize := by
      have hle : (s.sessions.queued id).length ≤ (s.sessions.calls id).length :=
        List.reduceOption_length_le _
      exact (hle.trans_lt (hlen ▸ hlt)).trans_le (h.good_head hslices).1
    obtain ⟨runtime, hr⟩ := submit_run h.following.sessions hmem hwalk hroom hnew
    have hok := (h.good_head hslices).2 _ (List.getElem_mem hlt)
    have hp : packRequest Resources.all = .ok (.packed .bnModExp 5) := rfl
    refine ⟨.call t id ref .all, rfl, Releasing.step_run rfl
      (Sessions.call_queued_run hmem hwalk hp hr) ?_⟩
    simp only [follow, hplace, hslices, List.getElem?_eq_getElem hlt, Option.map_some, hok]
    rfl
  · refine ⟨.release t id slice.length, rfl, Releasing.step_run rfl
      (Sessions.enter_run (h.following.sessions.lt_of_held hmem) hmem hwalk slice.length) ?_⟩
    simp [follow, hplace, hslices]

/-- Where a buffer is free, it can be acquired. -/
theorem acquire_enabled (hplace : s.place = .acquire)
    (hroom : s.sessions.runtime.outstanding.busyCount < bufferCount) :
    ∃ a : Action τ ι, a.thread = some t ∧ (Slices.step t ok s a).isSome := by
  obtain ⟨slice, rest, hslices⟩ := h.going
  obtain ⟨runtime, hr⟩ := Sessions.acquire_run h.following.sessions.traced.owned hroom t 0
  have hstep : Sessions.step s.sessions (.acquire t 0)
      = .ok { s.sessions with runtime := runtime } := by
    rw [Sessions.step, hr]
    rfl
  refine ⟨.acquire t 0, rfl, Releasing.step_run rfl hstep ?_⟩
  simp [follow, hplace, hslices]

end Going

/-! ### What is left to do -/

/-- What is left of a slice, in steps of the thread. -/
def stepsLeft (s : State τ ι) : ℕ :=
  match s.place with
  | .acquire => 3 * (s.slices.headD []).length + 3
  | .call _ i => (s.slices.headD []).length - i + 2 * (s.slices.headD []).length + 2
  | .release id => toGo (s.sessions.walk id)

/-- What is left of the call. -/
def left (s : State τ ι) : ℕ ×ₗ ℕ := toLex (s.slices.length, stepsLeft s)

omit [DecidableEq τ] [DecidableEq ι] in
theorem left_lt_of_slices {s u : State τ ι} (h : u.slices.length < s.slices.length) :
    left u < left s :=
  Prod.Lex.toLex_lt_toLex.mpr (Or.inl h)

omit [DecidableEq τ] [DecidableEq ι] in
theorem left_lt_of_steps {s u : State τ ι} (h : u.slices = s.slices)
    (hsteps : stepsLeft u < stepsLeft s) : left u < left s :=
  Prod.Lex.toLex_lt_toLex.mpr (Or.inr ⟨congrArg List.length h, hsteps⟩)

namespace Going

variable {s u : State τ ι} {a : Action τ ι} (h : Going t slices ok s)
include h

/-- A step of another thread changes nothing that is left to do. -/
theorem other_left {s' : Sessions.State τ ι} (ha : a.thread ≠ some t)
    (hs : Sessions.step s.sessions a = .ok s') : left { s with sessions := s' } = left s := by
  have hlinked := h.following.linked
  cases hplace : s.place with
  | acquire => simp [left, stepsLeft, hplace]
  | call id i => simp [left, stepsLeft, hplace]
  | release id =>
      rw [hplace] at hlinked
      obtain ⟨-, -, hwalk⟩ := h.following.sessions.elsewhere hlinked.1 ha hs
      simp [left, stepsLeft, hplace, hwalk]

/-- A round of a release, or a part of one, brings its end nearer. -/
theorem round_left {id : ℕ} (ha : a.thread = some t) (hs : Slices.step t ok s a = some u)
    (hplace : s.place = .release id) (hplace' : u.place = .release id)
    (hslices : u.slices = s.slices) : left u < left s := by
  obtain ⟨slice, rest, hcons⟩ := h.going
  obtain ⟨hrel, hgood⟩ := h.releasing hplace hcons
  rcases hrel.nearer hgood (Or.inl ha) hs with hleft | ⟨-, -, hlt⟩
  · exact absurd hplace' hleft
  · refine left_lt_of_steps hslices ?_
    simpa only [stepsLeft, hplace, hplace'] using hlt ha

/-- A step of the thread brings the end nearer. -/
theorem own_left {s' : Sessions.State τ ι} (ha : a.thread = some t) (hf : Follows ok s s' a u)
    (hs : Slices.step t ok s a = some u) (hstep : Sessions.step s.sessions a = .ok s') :
    left u < left s := by
  obtain ⟨slice, rest, hslices⟩ := h.going
  cases hf with
  | acquire hplace hslices' =>
      refine left_lt_of_steps rfl ?_
      simp only [stepsLeft, hplace]
      omega
  | @call v id i e ref resources slice' rest' hplace hslices' he hok =>
      refine left_lt_of_steps rfl ?_
      rw [hslices] at hslices'
      cases hslices'
      obtain ⟨hi, -⟩ := List.getElem?_eq_some_iff.mp he
      simp only [stepsLeft, hplace, hslices, List.headD_cons]
      omega
  | @release v id slice' rest' hplace hslices' =>
      refine left_lt_of_steps rfl ?_
      rw [hslices] at hslices'
      cases hslices'
      obtain ⟨-, -, rfl⟩ := Sessions.enter_ok hstep
      have hwalk : (Sessions.entered s.sessions id slice.length).walk id = some {
          batchSize := slice.length
          nextDataOut := (s.sessions.runtime.outstanding.buffer id).nextDataOut
          j := 0
          task := none
          freed := [] } := Function.update_self ..
      simp only [stepsLeft, hplace, hslices, List.headD_cons, hwalk, toGo, Option.isSome_none]
      simp only [Bool.false_eq_true, if_false]
      omega
  | look hplace => exact h.round_left ha hs hplace hplace rfl
  | finish hplace => exact h.round_left ha hs hplace hplace rfl
  | giveBack hplace hslices' =>
      refine left_lt_of_slices ?_
      rw [hslices']
      exact Nat.lt_succ_self _

/-- A step ends the call, or brings its end nearer, or is one of another thread. -/
theorem step_cases (hplan : Others t s a) (hs : Slices.step t ok s a = some u) :
    u.slices = [] ∨ Going t slices ok u ∧
      (left u < left s ∨ left u = left s ∧ a.thread ≠ some t) := by
  have hafter := h.following.step hplan hs
  cases hslices : u.slices with
  | nil => exact Or.inl rfl
  | cons slice rest =>
      refine Or.inr ⟨⟨hafter, ⟨slice, rest, hslices⟩, h.good⟩, ?_⟩
      obtain ⟨s', hstep, ⟨ha, hf⟩ | ⟨ha, rfl⟩⟩ := step_inv hs
      · exact Or.inl (h.own_left ha hf hs hstep)
      · exact Or.inr ⟨h.other_left ha hstep, ha⟩

end Going

/-! ### The run -/

section

variable {ok' : State τ ι → Action τ ι → Prop} (r : (system τ ι t slices ok).Run ok')

/-- While the thread takes no step, it stays where it is. -/
theorem stays {m : ℕ} (h : ∀ n, m ≤ n → Going t slices ok (r.state n))
    (hidle : ∀ n, m ≤ n → (r.action n).thread ≠ some t) {n : ℕ} (hmn : m ≤ n) :
    (r.state n).place = (r.state m).place ∧
      ∀ id, (r.state m).place.bufferId = some id →
        (r.state n).sessions.calls id = (r.state m).sessions.calls id := by
  induction hmn with
  | refl => exact ⟨rfl, fun _ _ => rfl⟩
  | @step n hmn ih =>
      obtain ⟨hplace, hcalls⟩ := ih
      obtain ⟨s', hstep, ⟨ha, -⟩ | ⟨ha, hu⟩⟩ := step_inv (r.step n)
      · exact absurd ha (hidle n hmn)
      · rw [hu]
        refine ⟨hplace, fun id hid => ?_⟩
        have hheld := (h n hmn).following.held (hplace ▸ hid)
        obtain ⟨-, hsame, -⟩ := (h n hmn).following.sessions.elsewhere hheld ha hstep
        exact hsame.trans (hcalls id hid)

/-- The others do not keep the thread waiting for ever: a buffer is free when it wants one, and
its requests are answered. -/
structure Helped : Prop where
  fair : r.WeaklyFair fun a => a.thread = some t
  room : ∀ n, (r.state n).place = .acquire →
    (r.state n).sessions.runtime.outstanding.busyCount < bufferCount
  answered : ∀ n, ∀ x ∈ (r.state n).asked, ∀ q, x.2 = some q →
    ∃ m, ((r.state m).sessions.answer q).isSome

variable {r}

theorem answer_stays (hfollowing : ∀ n, Following t slices ok (r.state n)) {q : Request ι}
    {n m : ℕ} (hnm : n ≤ m) (hq : ((r.state n).sessions.answer q).isSome) :
    ((r.state m).sessions.answer q).isSome := by
  induction hnm with
  | refl => exact hq
  | step _ ih =>
      obtain ⟨out, hout⟩ := Option.isSome_iff_exists.mp ih
      exact (hfollowing _).answer_step (r.step _) hout

/-- At some point the requests of the slice that is being released have been answered. -/
theorem Helped.all_answered (h : Helped r) (hfollowing : ∀ n, Following t slices ok (r.state n))
    {m id : ℕ} (hplace : (r.state m).place = .release id) :
    ∃ n, ∀ q ∈ ((r.state m).sessions.calls id).reduceOption,
      ((r.state n).sessions.answer q).isSome := by
  refine r.eventually_all (P := fun q s => (s.sessions.answer q).isSome)
    (fun q n k hnk hq => answer_stays hfollowing hnk hq) fun q hq => ?_
  have hlinked := (hfollowing m).linked
  rw [hplace] at hlinked
  obtain ⟨-, -, slice, rest, hslices, hcalls⟩ := hlinked
  have hlen := congrArg List.length hcalls
  rw [List.length_map, List.length_map] at hlen
  -- it was queued for an element
  have hmem : some q ∈ (slice.zip ((r.state m).sessions.calls id)).map Prod.snd := by
    rw [List.map_snd_zip hlen.le]
    exact List.reduceOption_mem_iff.mp hq
  obtain ⟨x, hx, hxq⟩ := List.mem_map.mp hmem
  have hid : (r.state m).place.bufferId = some id := by
    rw [hplace]
    rfl
  refine h.answered m x ?_ q hxq
  rw [asked_some hid, hslices]
  exact hx

/-- The thread takes a step. -/
theorem Helped.served [Infinite ι] (h : Helped r)
    (hfollowing : ∀ n, Following t slices ok (r.state n)) {m : ℕ}
    (hgoing : ∀ n, m ≤ n → Going t slices ok (r.state n)) :
    ∃ n, m ≤ n ∧ (r.action n).thread = some t := by
  by_contra hc
  push Not at hc
  have hstays := fun n (hmn : m ≤ n) => stays r hgoing hc hmn
  -- but then it could always take one from some point on
  obtain ⟨k, hmk, henabled⟩ : ∃ k, m ≤ k ∧ ∀ n, k ≤ n → ∃ a : Action τ ι, a.thread = some t ∧
      ((system τ ι t slices ok).step (r.state n) a).isSome := by
    cases hplace : (r.state m).place with
    | acquire =>
        refine ⟨m, le_rfl, fun n hmn => ?_⟩
        have hplace' := (hstays n hmn).1.trans hplace
        exact (hgoing n hmn).acquire_enabled hplace' (h.room n hplace')
    | call id i =>
        refine ⟨m, le_rfl, fun n hmn => ?_⟩
        exact (hgoing n hmn).call_enabled ((hstays n hmn).1.trans hplace)
    | release id =>
        obtain ⟨k, hk⟩ := h.all_answered hfollowing hplace
        refine ⟨max m k, le_max_left m k, fun n hn => ?_⟩
        have hmn := (le_max_left m k).trans hn
        obtain ⟨slice, rest, hslices⟩ := (hgoing n hmn).going
        obtain ⟨hrel, -⟩ := (hgoing n hmn).releasing ((hstays n hmn).1.trans hplace) hslices
        refine hrel.enabled fun q hq => ?_
        rw [(hstays n hmn).2 id (by rw [hplace]; rfl)] at hq
        exact answer_stays hfollowing ((le_max_right m k).trans hn) (hk q hq)
  obtain ⟨n, hkn, hn⟩ := h.fair k henabled
  exact hc n (hmk.trans hkn) hn

/-- The thread gets through all of its slices. -/
theorem Helped.ends [Infinite ι] (h : Helped r) (hothers : ∀ s a, ok' s a → Others t s a)
    (hinit : r.state 0 = State.initial slices) (hgood : ∀ slice ∈ slices, Good ok slice) :
    ∃ n, (r.state n).slices = [] := by
  have hfollowing : ∀ n, Following t slices ok (r.state n) := fun n =>
    r.keeps (fun s a _ hs hok hstep => hs.step (hothers s a hok) hstep) (Nat.zero_le n)
      (hinit ▸ Following.initial)
  cases hslices : (r.state 0).slices with
  | nil => exact ⟨0, hslices⟩
  | cons slice rest =>
      have hstart : Going t slices ok (r.state 0) := ⟨hfollowing 0, ⟨slice, rest, hslices⟩, hgood⟩
      obtain ⟨n, -, hn⟩ := r.reaches_served (fun _ a => a.thread = some t) (fun _ => ())
        (Going t slices ok) (fun s => s.slices = []) left
        (fun m _ hI => (hI.step_cases (hothers _ _ (r.meets m)) (r.step m)).imp_right fun hu =>
          ⟨hu.1, hu.2.imp_right fun hsame => ⟨hsame.1, rfl, hsame.2⟩⟩)
        (fun m _ hI => h.served hfollowing fun n hmn => (hI n hmn).1) hstart
      exact ⟨n, hn⟩

end

/--
**The offloaded call returns, and with what the device computes.**

In every run in which the thread gets its turns, a buffer is free when it wants one and the
device answers its requests, whatever the other threads do: when each of its calls queues a
request and no slice is larger than the ring, `heQatBnModExp_MT` returns, and what it returns is
what running the requests one after the other returns.
-/
theorem offload_returns [Infinite ι] {en : Engines} {base exponent modulus : List ℤ}
    {batchSize : ℕ} (r : (system τ ι t (elements (worksize base) batchSize) ok).Run
      (Conforms en base exponent modulus t)) (h : Helped r)
    (hinit : r.state 0 = State.initial (elements (worksize base) batchSize))
    (hgood : ∀ slice ∈ elements (worksize base) batchSize, Good ok slice)
    (hmod : modulus ≠ []) (hbatch : 0 < batchSize)
    (hcount : Engines.batchSizeMT (worksize base) batchSize < 2 ^ 31) :
    ∃ n, (r.state n).slices = [] ∧
      collected (operandLength en modulus) (worksize base) (r.state n).remainder
        = en.heQatBnModExp_MT base exponent modulus batchSize := by
  obtain ⟨n, hn⟩ := h.ends (fun _ _ => And.left) hinit hgood
  exact ⟨n, hn, (computed (r.reachable (.init hinit) n)).collects hn hmod hbatch hcount⟩

/-- A thread that has no slice left takes no step. -/
theorem not_enabled {s : State τ ι} (hplace : s.place = .acquire) (hslices : s.slices = [])
    {a : Action τ ι} (ha : a.thread = some t) : ¬ (Slices.step t ok s a).isSome := by
  intro hc
  obtain ⟨u, hu⟩ := Option.isSome_iff_exists.mp hc
  obtain ⟨s', -, ⟨-, hf⟩ | ⟨hne, -⟩⟩ := step_inv hu
  · cases hf with
    | acquire _ hcons => rw [hslices] at hcons; cases hcons
    | call _ hcons _ _ => rw [hslices] at hcons; cases hcons
    | release _ hcons => rw [hslices] at hcons; cases hcons
    | look hplace' => rw [hplace] at hplace'; cases hplace'
    | finish hplace' => rw [hplace] at hplace'; cases hplace'
    | giveBack _ hcons => rw [hslices] at hcons; cases hcons
  · exact hne ha

/-- The thread is done, and another one holds the first buffer. -/
structure Over (s : State ℕ ℕ) : Prop where
  place : s.place = .acquire
  slices : s.slices = []
  held : (2, 0) ∈ s.sessions.runtime.held
  walk : s.sessions.walk 0 = none
  room : s.sessions.runtime.outstanding.busyCount < bufferCount

/-- From there the other thread can go on for ever, with calls that fail. -/
theorem Over.goes {slices : List (List ℕ)} {ok : ℕ → Bool} {s : State ℕ ℕ} (h : Over s) :
    ∃ (a : Sessions.Action ℕ ℕ) (s' : State ℕ ℕ),
      (system ℕ ℕ 1 slices ok).step s a = some s' ∧ Over s' ∧
        ∀ compute, Others 1 s a ∧ Computes compute s a := by
  have hp : packRequest { Resources.all with pBase := false } = .error .fail := rfl
  have hstep := Sessions.call_failed_run h.held h.walk 0 hp
  refine ⟨.call 2 0 0 { Resources.all with pBase := false },
    { s with sessions := Sessions.failed s.sessions 0 }, ?_,
    ⟨h.place, h.slices, h.held, h.walk, h.room⟩,
    fun compute => ⟨Or.inr trivial, fun y hy => by cases hy⟩⟩
  show Slices.step 1 ok s _ = _
  rw [Slices.step, hstep]
  rfl

/-- What is seen on the way: a buffer is free, and these are the requests. -/
def Watched (s : State ℕ ℕ) : Prop :=
  (s.place = .acquire → s.sessions.runtime.outstanding.busyCount < bufferCount) ∧
    ∀ x ∈ s.asked, x.2 ∈ [none, some ⟨some 1, 10⟩, some ⟨some 1, 11⟩, some ⟨some 1, 12⟩]

instance (s : State ℕ ℕ) : Decidable (Watched s) := by
  unfold Watched
  infer_instance

theorem offload_returns_three :
    ∃ r : (system ℕ ℕ 1 (elements (worksize [2, 3, 4]) 2) fun _ => true).Run
        (Conforms Engines.reference [2, 3, 4] [5, 2, 1] [15, 15, 15] 1),
      r.state 0 = State.initial (elements (worksize [2, 3, 4]) 2) ∧
      ∃ n, (r.state n).slices = [] ∧
        collected (operandLength Engines.reference [15, 15, 15]) (worksize [2, 3, 4])
            (r.state n).remainder
          = Engines.reference.heQatBnModExp_MT [2, 3, 4] [5, 2, 1] [15, 15, 15] 2 := by
  obtain ⟨u, hrun, hu⟩ := Option.map_eq_some_iff.mp
    (show ((system ℕ ℕ 1 (elements (worksize [2, 3, 4]) 2) fun _ => true).runIf
        (fun s a => Conforms Engines.reference [2, 3, 4] [5, 2, 1] [15, 15, 15] 1 s a ∧ Watched s)
        (State.initial (elements (worksize [2, 3, 4]) 2)) offloadRun).map
          (fun s => (s.place, s.slices, s.sessions.runtime.held, (s.sessions.walk 0).isNone &&
            s.sessions.runtime.outstanding.busyCount < bufferCount &&
            [⟨some 1, 10⟩, ⟨some 1, 11⟩, ⟨some 1, 12⟩].all fun q => (s.sessions.answer q).isSome))
        = some (.acquire, [], [(2, 0)], true) by decide +kernel)
  simp only [Prod.mk.injEq, Bool.and_eq_true, Option.isNone_iff_eq_none, decide_eq_true_eq,
    List.all_eq_true] at hu
  obtain ⟨hplace, hslices, hheld, ⟨hwalk, hroom⟩, hanswered⟩ := hu
  have hover : Over u := ⟨hplace, hslices, hheld ▸ List.mem_cons_self, hwalk, hroom⟩
  obtain ⟨r, rfl, hfair, hJ⟩ : ∃ r : (system ℕ ℕ 1 (elements (worksize [2, 3, 4]) 2) fun _ =>
      true).Run (Conforms Engines.reference [2, 3, 4] [5, 2, 1] [15, 15, 15] 1), r.state 0 = u ∧
      (∀ _ : Unit, r.WeaklyFair fun a => a.thread = some 1) ∧ ∀ n, Over (r.state n) := by
    refine TransitionSystem.Run.exists_fair (fun _ _ => 0) (fun s hs => ?_) hover
    obtain ⟨a, s', hstep, hs', hok⟩ := hs.goes
    refine ⟨a, s', hok _, hstep, hs', fun _ henabled => ?_⟩
    obtain ⟨b, hb, hsome⟩ := henabled
    exact absurd hsome (not_enabled hs.place hs.slices hb)
  obtain ⟨r', hinit, hlater, hkept, hseen⟩ := r.exists_prepend hrun
  have hat : ∀ n, offloadRun.length ≤ n → Over (r'.state n) := by
    intro n hn
    rw [← Nat.add_sub_cancel' hn, hlater]
    exact hJ _
  refine ⟨r', hinit, offload_returns r' {
    fair := hkept (hfair ())
    room := fun n hn => ?_
    answered := fun n x hx q hq => ⟨offloadRun.length, ?_⟩ } hinit (by decide) (by decide)
    (by decide) (by decide)⟩
  · rcases Nat.lt_or_ge n offloadRun.length with hlt | hge
    · exact (hseen n hlt).1 hn
    · exact (hat n hge).room
  · rw [← Nat.add_zero offloadRun.length, hlater]
    rcases Nat.lt_or_ge n offloadRun.length with hlt | hge
    · have hmem := (hseen n hlt).2 x hx
      rw [hq] at hmem
      exact hanswered q (by simpa using hmem)
    · rw [asked_none (by rw [(hat n hge).place]; rfl)] at hx
      cases hx

end Slices

end Ipcl.HeQat
