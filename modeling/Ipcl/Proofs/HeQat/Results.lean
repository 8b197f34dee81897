/-
The runtime computes what the device computes.

`heQatBnModExp_MT` writes requests to a buffer it has acquired, the scheduler moves them to the
internal ring, the processing thread offloads them, callbacks store their results, and other
threads do all this at the same time.  What comes of it is the plain function: run the request of
every element, one after the other, and read the results.

Safety rests on two facts.  The requests of a slice are new when they are queued, so an answer to
one of them is an answer to the element it was queued for; and a slice is given back when each of
its requests has been answered, so what is read is that answer.  A slice with more requests than
the ring has slots is never given back.
-/
import Ipcl.HeQat.Results
import Ipcl.Proofs.HeQat.Slices
import Ipcl.Proofs.ModExp

namespace Ipcl.HeQat

variable {τ ι : Type} [DecidableEq τ] [DecidableEq ι]

/-! ### Where answers come from -/

/-- An answer is there already, or is the one that comes now. -/
theorem Sessions.Sound.answer_cases {s s' : Sessions.State τ ι} (h : Sessions.Sound s)
    {a : Sessions.Action τ ι} (hs : Sessions.step s a = .ok s') {r : Request ι} {out : List ℕ}
    (hout : s'.answer r = some out) : s.answer r = some out ∨ a = .callback r out := by
  cases a with
  | acquire u bufferId =>
      obtain ⟨runtime, -, hs⟩ := Section.bind_eq_ok.mp hs
      cases hs
      exact Or.inl hout
  | call u bufferId ref a =>
      obtain ⟨-, -, ⟨-, rfl⟩ | ⟨request, runtime, -, -, rfl⟩⟩ := Sessions.call_ok hs
      · exact Or.inl hout
      · exact Or.inl hout
  | background a =>
      obtain ⟨runtime, -, hs⟩ := Section.bind_eq_ok.mp hs
      cases hs
      exact Or.inl hout
  | callback q out' =>
      obtain ⟨-, -, request, -, rfl⟩ := Sessions.callback_ok hs
      by_cases hr : r = q
      · subst hr
        rw [show (Sessions.answered s r request out').answer r = some out' from
          Function.update_self ..] at hout
        cases hout
        exact Or.inr rfl
      · exact Or.inl ((Function.update_of_ne hr _ _).symm.trans hout)
  | release u bufferId batchSize =>
      obtain ⟨-, -, rfl⟩ := Sessions.enter_ok hs
      exact Or.inl hout
  | look u bufferId =>
      obtain ⟨-, w, -, -, -, rfl⟩ := Sessions.look_ok hs
      exact Or.inl hout
  | finish u bufferId =>
      obtain ⟨-, w, q, -, -, -, rfl⟩ := h.finish_ok hs
      exact Or.inl hout
  | giveBack u bufferId =>
      obtain ⟨-, w, o, -, -, -, rfl⟩ := h.giveBack_effect hs
      exact Or.inl hout

/-- A buffer that is given back had room for the calls of its session. -/
theorem Sessions.Sound.size_of_giveBack {s s' : Sessions.State τ ι} (h : Sessions.Sound s) {t : τ}
    {bufferId : ℕ} (hs : Sessions.step s (.giveBack t bufferId) = .ok s') :
    (s.calls bufferId).length ≤ bufferSize := by
  obtain ⟨hheld, w, hw, hj, -⟩ := Sessions.giveBack_ok hs
  have hsession := h.session bufferId (h.lt_of_held hheld)
  rw [hw] at hsession
  exact (hsession.through hj).2.1

namespace Slices

open Sessions (Action)

variable {t : τ} {slices : List (List ℕ)} {ok : ℕ → Bool} {compute : ℕ → Result (List ℕ)}

/-! ### The values are those computed -/

omit [DecidableEq τ] [DecidableEq ι] in
theorem asked_none {s : State τ ι} (hid : s.place.bufferId = none) : s.asked = [] := by
  simp only [State.asked, hid]

omit [DecidableEq τ] [DecidableEq ι] in
theorem asked_some {s : State τ ι} {id : ℕ} (hid : s.place.bufferId = some id) :
    s.asked = (s.slices.headD []).zip (s.sessions.calls id) := by
  simp only [State.asked, hid]

/-- What one more call adds to the pairs is a pair with what it has queued. -/
theorem mem_zip_append {α β : Type} {x : α × β} {c : β} :
    ∀ {xs : List α} {ys : List β}, x ∈ xs.zip (ys ++ [c]) → x ∈ xs.zip ys ∨ x.2 = c := by
  intro xs
  induction xs with
  | nil =>
      intro ys hx
      rw [List.zip_nil_left] at hx
      cases hx
  | cons y rest ih =>
      intro ys hx
      cases ys with
      | nil =>
          rw [List.nil_append, List.zip_cons_cons, List.zip_nil_right, List.mem_singleton] at hx
          exact Or.inr (congrArg Prod.snd hx)
      | cons z zs =>
          rw [List.cons_append, List.zip_cons_cons, List.mem_cons] at hx
          rw [List.zip_cons_cons, List.mem_cons]
          rcases hx with rfl | hx
          · exact Or.inl (Or.inl rfl)
          · exact (ih hx).imp_left Or.inr

omit [DecidableEq τ] in
theorem Following.held {s : State τ ι} (h : Following t slices ok s) {id : ℕ}
    (hid : s.place.bufferId = some id) : (t, id) ∈ s.sessions.runtime.held := by
  have hlinked := h.linked
  cases hplace : s.place with
  | acquire =>
      rw [hplace] at hid
      cases hid
  | call id' i =>
      rw [hplace] at hid hlinked
      cases hid
      exact hlinked.1
  | release id' =>
      rw [hplace] at hid hlinked
      cases hid
      exact hlinked.1

/-- What is known of the values, of the slice in progress and of those that are done. -/
structure Computed (t : τ) (slices : List (List ℕ)) (ok : ℕ → Bool)
    (compute : ℕ → Result (List ℕ)) (s : State τ ι) : Prop where
  following : Following t slices ok s
  done : ∃ before, slices = before ++ s.slices ∧ s.remainder.map (·.element) = before.flatten ∧
    ∀ slice ∈ before, slice.length ≤ bufferSize
  values : ∀ v ∈ s.remainder, ∃ out, v.octets = some out ∧ compute v.element = .ok out
  asked : ∀ x ∈ s.asked, ∀ r out, x.2 = some r → s.sessions.answer r = some out →
    compute x.1 = .ok out

namespace Computed

omit [DecidableEq τ] in
theorem initial : Computed t slices ok compute (State.initial slices : State τ ι) where
  following := Following.initial
  done := ⟨[], rfl, rfl, fun slice hslice => by cases hslice⟩
  values v hv := by cases hv
  asked x hx := by cases hx

variable {s u : State τ ι} {s' : Sessions.State τ ι} {a : Action τ ι}
  (h : Computed t slices ok compute s)
include h

/-- An answer that is there after a step is right if the device answers as it is bound to. -/
theorem asked_step (hs : Sessions.step s.sessions a = .ok s') (hc : Computes compute s a) :
    ∀ x ∈ s.asked, ∀ r out, x.2 = some r → s'.answer r = some out → compute x.1 = .ok out := by
  intro x hx r out hr hout
  rcases h.following.sessions.answer_cases hs hout with hold | rfl
  · exact h.asked x hx r out hr hold
  · exact hc (r, out) List.mem_cons_self x hx hr

omit [DecidableEq τ] in
/-- A step that ends no slice. -/
theorem frame (hu : Following t slices ok u) (hslices : u.slices = s.slices)
    (hrem : u.remainder = s.remainder)
    (hasked : ∀ x ∈ u.asked, ∀ r out, x.2 = some r → u.sessions.answer r = some out →
      compute x.1 = .ok out) : Computed t slices ok compute u where
  following := hu
  done := by
    rw [hslices, hrem]
    exact h.done
  values := by
    rw [hrem]
    exact h.values
  asked := hasked

/-- Steps that leave the slices and the calls of the one in progress alone. -/
theorem keep (hu : Following t slices ok u) (hslices : u.slices = s.slices)
    (hrem : u.remainder = s.remainder) (hasked : u.asked = s.asked)
    (hs : Sessions.step s.sessions a = .ok u.sessions) (hc : Computes compute s a) :
    Computed t slices ok compute u := by
  refine h.frame hu hslices hrem ?_
  rw [hasked]
  exact h.asked_step hs hc

theorem other (hu : Following t slices ok { s with sessions := s' }) (ha : a.thread ≠ some t)
    (hs : Sessions.step s.sessions a = .ok s') (hc : Computes compute s a) :
    Computed t slices ok compute { s with sessions := s' } := by
  refine h.keep hu rfl rfl ?_ hs hc
  cases hid : s.place.bufferId with
  | none => rw [asked_none hid, asked_none (s := { s with sessions := s' }) hid]
  | some id =>
      obtain ⟨-, hcalls, -⟩ := h.following.sessions.elsewhere (h.following.held hid) ha hs
      rw [asked_some hid, asked_some (s := { s with sessions := s' }) hid, hcalls]

omit [DecidableEq τ] in
/-- The thread takes the next buffer. -/
theorem own_acquire (hu : Following t slices ok u) (hslices : u.slices = s.slices)
    (hrem : u.remainder = s.remainder) {id : ℕ} (hid : u.place.bufferId = some id)
    (hcalls : u.sessions.calls id = []) : Computed t slices ok compute u := by
  refine h.frame hu hslices hrem fun x hx => ?_
  rw [asked_some hid, hcalls, List.zip_nil_right] at hx
  cases hx

omit [DecidableEq τ] in
/-- One more call.  What it queues is new. -/
theorem own_call (hu : Following t slices ok u) (hslices : u.slices = s.slices)
    (hrem : u.remainder = s.remainder) {id : ℕ} (hid : s.place.bufferId = some id)
    (hid' : u.place.bufferId = some id) {c : Option (Request ι)}
    (hcalls : u.sessions.calls id = s.sessions.calls id ++ [c])
    (hnew : ∀ r, c = some r → s.sessions.answer r = none)
    (hanswer : u.sessions.answer = s.sessions.answer) : Computed t slices ok compute u := by
  refine h.frame hu hslices hrem fun x hx r out hr hout => ?_
  rw [hanswer] at hout
  rw [asked_some hid', hslices, hcalls] at hx
  rcases mem_zip_append hx with hold | hc
  · exact h.asked x (by rwa [asked_some hid]) r out hr hout
  · rw [hnew r (hc.symm.trans hr)] at hout
    cases hout

/-- The slice is done. -/
theorem own_giveBack {id : ℕ} {slice : List ℕ} {rest : List (List ℕ)}
    (hplace : s.place = .release id) (hslices : s.slices = slice :: rest)
    (hs : Sessions.step s.sessions (.giveBack t id) = .ok s') :
    Computed t slices ok compute {
      sessions := s'
      place := .acquire
      slices := rest
      remainder := s.remainder ++ readBack s.sessions id slice } where
  following := h.following.own_giveBack hslices hs
  done := by
    obtain ⟨before, hall, hrem, hbefore⟩ := h.done
    have hlen : slice.length = (s.sessions.calls id).length := by
      have hlinked := h.following.linked
      rw [hplace, hslices] at hlinked
      obtain ⟨-, -, slice', rest', hcons, hcalls⟩ := hlinked
      cases hcons
      simpa using (congrArg List.length hcalls).symm
    refine ⟨before ++ [slice], ?_, ?_, ?_⟩
    · rw [hall, hslices, List.append_assoc, List.singleton_append]
    · rw [List.map_append, hrem, List.flatten_append, List.flatten_singleton, readBack,
        List.map_map]
      exact congrArg _ (List.map_fst_zip hlen.le)
    · intro slice' hmem
      rcases List.mem_append.mp hmem with hmem | hmem
      · exact hbefore slice' hmem
      · rw [List.mem_singleton.mp hmem, hlen]
        exact h.following.sessions.size_of_giveBack hs
  values := by
    intro v hv
    rcases List.mem_append.mp hv with hv | hv
    · exact h.values v hv
    obtain ⟨x, hx, rfl⟩ := List.mem_map.mp hv
    obtain ⟨r, out, hr, -, hanswer, hout⟩ :=
      (h.following.own_giveBack hslices hs).values _ (List.mem_append_right _ hv)
    refine ⟨out, hout, ?_⟩
    have hid : s.place.bufferId = some id := by
      rw [hplace]
      rfl
    have hasked : x ∈ s.asked := by
      rw [asked_some hid, hslices]
      exact hx
    rcases h.following.sessions.answer_cases hs hanswer with hold | hcb
    · exact h.asked x hasked r out hr hold
    · cases hcb
  asked x hx := by cases hx

/-- The thread in the function takes a step. -/
theorem own (hf : Follows ok s s' a u) (ha : a.thread = some t)
    (hs : Sessions.step s.sessions a = .ok s') (hc : Computes compute s a) :
    Computed t slices ok compute u := by
  have hu := h.following.own hf ha hs
  cases hf with
  | acquire hplace hslices =>
      have hlinked := hu.linked
      obtain ⟨-, -, slice', rest', -, -, hcalls⟩ := hlinked
      rw [List.take_zero, List.map_nil, List.map_eq_nil_iff] at hcalls
      exact h.own_acquire hu rfl rfl rfl hcalls
  | @call v id i e ref resources slice rest hplace hslices he hok =>
      have hid : s.place.bufferId = some id := by rw [hplace]; rfl
      obtain ⟨-, -, ⟨-, rfl⟩ | ⟨request, runtime, -, hr, rfl⟩⟩ := Sessions.call_ok hs
      · exact h.own_call hu rfl rfl hid rfl (Function.update_self ..) (fun r hr => by cases hr) rfl
      · obtain ⟨hnew, -⟩ := Sessions.submit_ok hr
        refine h.own_call hu rfl rfl hid rfl (Function.update_self ..) (fun r hr => ?_) rfl
        cases hr
        exact (h.following.sessions.fresh hnew).1
  | release hplace hslices =>
      refine h.keep hu rfl rfl ?_ hs hc
      obtain ⟨-, -, rfl⟩ := Sessions.enter_ok hs
      rw [asked_some (s := s) (by rw [hplace]; rfl), asked_some rfl]
      rfl
  | look hplace =>
      refine h.keep hu rfl rfl ?_ hs hc
      obtain ⟨-, w, -, -, -, rfl⟩ := Sessions.look_ok hs
      rfl
  | finish hplace =>
      refine h.keep hu rfl rfl ?_ hs hc
      obtain ⟨-, w, r, -, -, -, rfl⟩ := h.following.sessions.finish_ok hs
      rfl
  | giveBack hplace hslices =>
      cases ha
      exact h.own_giveBack hplace hslices hs

theorem step (hplan : Others t s a) (hc : Computes compute s a)
    (hs : Slices.step t ok s a = some u) : Computed t slices ok compute u := by
  obtain ⟨s', hstep, ⟨ha, hf⟩ | ⟨ha, rfl⟩⟩ := step_inv hs
  · exact h.own hf ha hstep hc
  · exact h.other (h.following.other (hplan.resolve_left ha) ha hstep) ha hstep hc

end Computed

/-! ### Reading them is what the plain function does -/

section

variable {en : Engines} {base exponent modulus : List ℤ}

omit [DecidableEq τ] [DecidableEq ι] in
/-- One slice of the plain function, when its requests have been answered. -/
theorem qatSlice_eq {length : ℕ} {indices : List ℕ} {values : List (Value ι)} {msg : String}
    (hvalues : ∀ v ∈ values, ∃ out, v.octets = some out ∧
      en.request length base exponent modulus v.element = .ok out)
    (hindices : values.map (·.element) = indices) (hsize : indices.length ≤ bufferSize)
    (remainder : List ℤ) :
    en.qatSlice length base exponent modulus remainder ⟨indices, msg, .hang⟩
      = values.foldlM (fun remainder v => Engines.collect length msg remainder v.element
          (v.octets.getD (List.replicate length 0))) remainder := by
  have houts : ∀ v ∈ values, en.request length base exponent modulus v.element
      = .ok (v.octets.getD (List.replicate length 0)) := by
    intro v hv
    obtain ⟨out, hout, hrequest⟩ := hvalues v hv
    rw [hout, hrequest, Option.getD_some]
  have hmap : indices.mapM (en.request length base exponent modulus)
      = .ok (values.map fun v => v.octets.getD (List.replicate length 0)) := by
    rw [← hindices, List.mapM_map]
    exact Vec.mapM_ok values houts
  rw [Engines.qatSlice, hmap, Result.bind_ok, if_neg (Nat.not_lt.mpr hsize), ← hindices,
    List.zip_map', List.foldlM_map]

omit [DecidableEq τ] [DecidableEq ι] in
/-- All of them. -/
theorem qatSlices_eq {length : ℕ} {msg : String} :
    ∀ {slices : List (List ℕ)} {values : List (Value ι)} (remainder : List ℤ),
      (∀ v ∈ values, ∃ out, v.octets = some out ∧
        en.request length base exponent modulus v.element = .ok out) →
      values.map (·.element) = slices.flatten → (∀ slice ∈ slices, slice.length ≤ bufferSize) →
      (slices.map fun indices => (⟨indices, msg, .hang⟩ : Engines.Slice)).foldlM
          (en.qatSlice length base exponent modulus) remainder
        = values.foldlM (fun remainder v => Engines.collect length msg remainder v.element
            (v.octets.getD (List.replicate length 0))) remainder := by
  intro slices
  induction slices with
  | nil =>
      intro values remainder _ helements _
      rw [List.flatten_nil, List.map_eq_nil_iff] at helements
      subst helements
      rfl
  | cons indices rest ih =>
      intro values remainder hvalues helements hsizes
      rw [List.flatten_cons] at helements
      obtain ⟨first, others, rfl, hfirst, hothers⟩ := List.map_eq_append_iff.mp helements
      rw [List.map_cons, List.foldlM_cons, List.foldlM_append,
        qatSlice_eq (fun v hv => hvalues v (List.mem_append_left _ hv)) hfirst
          (hsizes _ List.mem_cons_self)]
      exact bind_congr fun remainder' =>
        ih remainder' (fun v hv => hvalues v (List.mem_append_right _ hv)) hothers fun slice hs =>
          hsizes slice (List.mem_cons_of_mem _ hs)

/-- The slices all print the same. -/
theorem slicesMT_eq (worksize batchSize : ℕ) : Engines.slicesMT worksize batchSize
    = (elements worksize batchSize).map fun indices =>
        ⟨indices, "residue bn_remainder_data_: failed at BigNumber::fromBin()\n", .hang⟩ := by
  rw [elements, List.map_map, Engines.slicesMT, List.map_map]
  rfl

theorem heQatBnModExp_MT_slices {batchSize : ℕ} (hmod : modulus ≠ []) (hbatch : 0 < batchSize)
    (hcount : Engines.batchSizeMT (worksize base) batchSize < 2 ^ 31) :
    en.heQatBnModExp_MT base exponent modulus batchSize
      = (Engines.slicesMT (worksize base) batchSize).foldlM
          (en.qatSlice (operandLength en modulus) base exponent modulus)
          (List.replicate (worksize base) 0) := by
  obtain ⟨front, rest, rfl⟩ := List.exists_cons_of_ne_nil hmod
  have hfront : elemAt (front :: rest) 0 = .ok front := rfl
  rw [Engines.heQatBnModExp_MT, Engines.qatBatches, hfront, Result.bind_ok, if_neg hbatch.ne']
  show (intLoop (Engines.batchSizeMT (worksize base) batchSize) >>= _) = _
  rw [intLoop, if_pos hcount, Result.bind_ok]
  rfl

theorem computed {s : State τ ι} (h : (system τ ι t slices ok).ReachableIf
    (fun s a => Others t s a ∧ Computes compute s a) s) : Computed t slices ok compute s := by
  refine h.invariant ?_ fun s a s' hs hplan hstep => hs.step hplan.1 hplan.2 hstep
  rintro _ rfl
  exact Computed.initial

omit [DecidableEq τ] in
/-- When nothing is left to do, the values read make up what the plain function returns. -/
theorem Computed.collects {s : State τ ι} {batchSize : ℕ}
    (h : Computed t (elements (worksize base) batchSize) ok (answerFor en base exponent modulus) s)
    (hdone : s.slices = []) (hmod : modulus ≠ []) (hbatch : 0 < batchSize)
    (hcount : Engines.batchSizeMT (worksize base) batchSize < 2 ^ 31) :
    collected (operandLength en modulus) (worksize base) s.remainder
      = en.heQatBnModExp_MT base exponent modulus batchSize := by
  obtain ⟨-, ⟨before, hall, helements, hsizes⟩, hvalues, -⟩ := h
  rw [hdone, List.append_nil] at hall
  subst hall
  rw [heQatBnModExp_MT_slices hmod hbatch hcount, slicesMT_eq,
    qatSlices_eq _ hvalues helements hsizes]
  rfl

/--
**The runtime computes what the device computes.**

However the calls, the scheduler, the processing thread, the callbacks and the sessions of other
threads come in between, and whichever calls of the function fail: when it comes to its end, it
returns what running the requests one after the other returns.
-/
theorem offload_computes {batchSize : ℕ} (hmod : modulus ≠ []) (hbatch : 0 < batchSize)
    (hcount : Engines.batchSizeMT (worksize base) batchSize < 2 ^ 31) {s : State τ ι}
    (h : (system τ ι t (elements (worksize base) batchSize) ok).ReachableIf
      (Conforms en base exponent modulus t) s) (hdone : s.slices = []) :
    collected (operandLength en modulus) (worksize base) s.remainder
      = en.heQatBnModExp_MT base exponent modulus batchSize :=
  (computed h).collects hdone hmod hbatch hcount

end

/-- Three elements in slices of two, on the second buffer while another thread has the first.  The
answers to the first slice come in the other order. -/
def offloadRun : List (Sessions.Action ℕ ℕ) :=
  [.acquire 2 0, .acquire 1 0, .call 1 1 10 .all, .call 1 1 11 .all, .background .select,
    .background .extract, .background .submitList, .background (.read 48), .background .dispatch,
    .background .dispatch, .callback ⟨some 1, 11⟩ [0, 0, 0, 9], .release 1 1 2, .look 1 1,
    .callback ⟨some 1, 10⟩ [0, 0, 0, 2], .finish 1 1, .look 1 1, .finish 1 1, .giveBack 1 1,
    .acquire 1 0, .call 1 1 12 .all, .release 1 1 1, .background .select, .background .extract,
    .background .submitList, .background (.read 48), .background .dispatch, .look 1 1,
    .callback ⟨some 1, 12⟩ [0, 0, 0, 4], .finish 1 1, .giveBack 1 1]

theorem offload_computes_three : ∃ s : State ℕ ℕ,
    (system ℕ ℕ 1 (elements (worksize [2, 3, 4]) 2) fun _ => true).runIf
        (Conforms Engines.reference [2, 3, 4] [5, 2, 1] [15, 15, 15] 1)
        (State.initial (elements (worksize [2, 3, 4]) 2)) offloadRun = some s ∧
      collected (operandLength Engines.reference [15, 15, 15]) (worksize [2, 3, 4]) s.remainder
        = Engines.reference.heQatBnModExp_MT [2, 3, 4] [5, 2, 1] [15, 15, 15] 2 := by
  obtain ⟨s, hs, hslices⟩ := Option.map_eq_some_iff.mp
    (show ((system ℕ ℕ 1 (elements (worksize [2, 3, 4]) 2) fun _ => true).runIf
        (Conforms Engines.reference [2, 3, 4] [5, 2, 1] [15, 15, 15] 1)
        (State.initial (elements (worksize [2, 3, 4]) 2)) offloadRun).map (·.slices) = some []
      by decide +kernel)
  exact ⟨s, hs,
    offload_computes (by decide) (by decide) (by decide) (.runIf (.init rfl) hs) hslices⟩

end Slices

end Ipcl.HeQat
