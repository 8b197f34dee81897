/-
Runs of a system.

A system has initial states and an executable step: `step s a` is the next state when
the action `a` is enabled in `s`.  What is proved about it is proved about every state
a run can reach, from two facts: it holds initially, and one step preserves it.  The
same rule serves runs all of whose steps meet a condition.

A system refines another when every step of it is matched by a sequence of steps of
the other, from related states to related states.  Then every reachable state is
related to a reachable one, and what is known of these carries over.

Whether something is bound to happen is a question about infinite runs, and about those
only that are fair to the actions that bring it about.  It is answered by a rank that
these actions lower, or by a place where they can go on for ever.
-/
import Mathlib

/-- Initial states and a guarded step. -/
structure TransitionSystem (σ α : Type) where
  init : σ → Prop
  step : σ → α → Option σ

namespace TransitionSystem

variable {σ α τ β : Type} {sys : TransitionSystem σ α} {abs : TransitionSystem τ β}

/-- The states of runs whose steps all meet `ok`. -/
inductive ReachableIf (sys : TransitionSystem σ α) (ok : σ → α → Prop) : σ → Prop
  | init {s : σ} (h : sys.init s) : ReachableIf sys ok s
  | step {s s' : σ} {a : α} (h : ReachableIf sys ok s) (hok : ok s a)
      (hstep : sys.step s a = some s') : ReachableIf sys ok s'

/-- The states of all runs. -/
abbrev Reachable (sys : TransitionSystem σ α) : σ → Prop := sys.ReachableIf fun _ _ => True

/-- What holds initially and is preserved by every step holds in every state reached. -/
theorem ReachableIf.invariant {ok : σ → α → Prop} {I : σ → Prop}
    (hinit : ∀ s, sys.init s → I s)
    (hstep : ∀ s a s', I s → ok s a → sys.step s a = some s' → I s') {s : σ}
    (h : sys.ReachableIf ok s) : I s := by
  induction h with
  | init h => exact hinit _ h
  | step _ hok hs ih => exact hstep _ _ _ ih hok hs

/-- The state after a list of actions. -/
def run (sys : TransitionSystem σ α) (s : σ) (as : List α) : Option σ := as.foldlM sys.step s

@[simp] theorem run_nil (s : σ) : sys.run s [] = some s := rfl

theorem run_singleton (s : σ) (a : α) : sys.run s [a] = sys.step s a := by
  simp [run]

/-- A run whose steps meet the condition reaches its last state. -/
theorem ReachableIf.run {ok : σ → α → Prop} :
    ∀ {as : List α} {s s' : σ}, sys.ReachableIf ok s → (∀ t a, a ∈ as → ok t a) →
      sys.run s as = some s' → sys.ReachableIf ok s' := by
  intro as
  induction as with
  | nil =>
      intro s s' h _ hrun
      cases hrun
      exact h
  | cons a rest ih =>
      intro s s' h hok hrun
      rw [TransitionSystem.run, List.foldlM_cons] at hrun
      cases hs : sys.step s a with
      | none => rw [hs] at hrun; cases hrun
      | some t =>
          rw [hs] at hrun
          exact ih (h.step (hok s a List.mem_cons_self) hs)
            (fun t b hb => hok t b (List.mem_cons_of_mem a hb)) hrun

/-- Something seen at the end of a run is seen in a reachable state. -/
theorem reachable_of_map_run (sys : TransitionSystem σ α) {γ : Type} {f : σ → γ} {x : γ}
    {as : List α} {s : σ} (hinit : sys.init s) (hrun : (sys.run s as).map f = some x) :
    ∃ u, sys.Reachable u ∧ f u = x := by
  obtain ⟨u, hu, hx⟩ := Option.map_eq_some_iff.mp hrun
  exact ⟨u, (ReachableIf.init hinit).run (fun _ _ _ => trivial) hu, hx⟩

/-- The state after a list of actions, if every one of them meets the condition. -/
def runIf (sys : TransitionSystem σ α) (ok : σ → α → Prop) [∀ s a, Decidable (ok s a)] (s : σ)
    (as : List α) : Option σ :=
  as.foldlM (fun s a => if ok s a then sys.step s a else none) s

theorem ReachableIf.runIf {ok : σ → α → Prop} [∀ s a, Decidable (ok s a)] :
    ∀ {as : List α} {s s' : σ}, sys.ReachableIf ok s → sys.runIf ok s as = some s' →
      sys.ReachableIf ok s' := by
  intro as
  induction as with
  | nil =>
      intro s s' h hrun
      cases hrun
      exact h
  | cons a rest ih =>
      intro s s' h hrun
      rw [TransitionSystem.runIf, List.foldlM_cons] at hrun
      by_cases hok : ok s a
      · rw [if_pos hok] at hrun
        cases hs : sys.step s a with
        | none => rw [hs] at hrun; cases hrun
        | some t =>
            rw [hs] at hrun
            exact ih (h.step hok hs) hrun
      · rw [if_neg hok] at hrun
        cases hrun

theorem run_cons {s : σ} {a : α} {as : List α} {u : σ} :
    sys.run s (a :: as) = some u ↔ ∃ t, sys.step s a = some t ∧ sys.run t as = some u := by
  rw [TransitionSystem.run, List.foldlM_cons]
  cases sys.step s a <;> simp [TransitionSystem.run]

/-- What every step preserves is preserved by a run. -/
theorem run_invariant (sys : TransitionSystem σ α) {I : σ → Prop}
    (hstep : ∀ s a s', I s → sys.step s a = some s' → I s') :
    ∀ {as : List α} {s u : σ}, I s → sys.run s as = some u → I u := by
  intro as
  induction as with
  | nil =>
      intro s u h hrun
      cases hrun
      exact h
  | cons a rest ih =>
      intro s u h hrun
      obtain ⟨t, hst, hrest⟩ := run_cons.mp hrun
      exact ih (hstep _ _ _ h hst) hrest

/-- The steps of the run all meet the condition. -/
def Meets (sys : TransitionSystem σ α) (ok : σ → α → Prop) : σ → List α → Prop
  | _, [] => True
  | s, a :: as => ok s a ∧ ∀ t, sys.step s a = some t → Meets sys ok t as

/-- When the steps that meet the condition preserve `G`, the others end it, and nothing
brings it back, then `G` holds after a run exactly when all its steps meet the condition.
`I` is an invariant of all steps that the three facts may use. -/
theorem holds_iff_meets (sys : TransitionSystem σ α) {ok : σ → α → Prop} {I G : σ → Prop}
    (hinv : ∀ s a s', I s → sys.step s a = some s' → I s')
    (hkeep : ∀ s a s', I s → G s → ok s a → sys.step s a = some s' → G s')
    (hend : ∀ s a s', I s → ¬ ok s a → sys.step s a = some s' → ¬ G s')
    (hlost : ∀ s a s', I s → ¬ G s → sys.step s a = some s' → ¬ G s') :
    ∀ {as : List α} {s u : σ}, I s → G s → sys.run s as = some u →
      (G u ↔ sys.Meets ok s as) := by
  have hstay : ∀ {as : List α} {s u : σ}, I s → ¬ G s → sys.run s as = some u → ¬ G u :=
    fun hI hG hrun => (sys.run_invariant (I := fun s => I s ∧ ¬ G s)
      (fun s a s' h hs => ⟨hinv s a s' h.1 hs, hlost s a s' h.1 h.2 hs⟩) ⟨hI, hG⟩ hrun).2
  intro as
  induction as with
  | nil =>
      intro s u _ hG hrun
      cases hrun
      exact ⟨fun _ => trivial, fun _ => hG⟩
  | cons a rest ih =>
      intro s u hI hG hrun
      obtain ⟨t, hst, hrest⟩ := run_cons.mp hrun
      have hIt := hinv s a t hI hst
      by_cases hok : ok s a
      · rw [ih hIt (hkeep s a t hI hG hok hst) hrest]
        constructor
        · intro hm
          refine ⟨hok, fun t' ht' => ?_⟩
          rw [hst] at ht'
          cases ht'
          exact hm
        · intro hm
          exact hm.2 t hst
      · constructor
        · intro hGu
          exact absurd hGu (hstay hIt (hend s a t hI hok hst) hrest)
        · intro hm
          exact absurd hm.1 hok

/-! ### Fewer steps -/

/-- The system that takes only the steps that are allowed. -/
def restrict (sys : TransitionSystem σ α) (allows : σ → α → Prop) [∀ s a, Decidable (allows s a)] :
    TransitionSystem σ α where
  init := sys.init
  step s a := if allows s a then sys.step s a else none

section
variable {allows : σ → α → Prop} [∀ s a, Decidable (allows s a)]

theorem restrict_step {s s' : σ} {a : α} :
    (sys.restrict allows).step s a = some s' ↔ allows s a ∧ sys.step s a = some s' :=
  Option.ite_none_right_eq_some

/-- It goes nowhere else. -/
theorem reachable_of_restrict {s : σ} (h : (sys.restrict allows).Reachable s) : sys.Reachable s :=
  h.invariant (fun _ hinit => .init hinit) fun _ _ _ hs _ hstep =>
    hs.step trivial (restrict_step.mp hstep).2

end

/-! ### Refinement -/

/-- `R` relates every step of the system to some steps of the other. -/
structure Refines (sys : TransitionSystem σ α) (abs : TransitionSystem τ β) (R : σ → τ → Prop) :
    Prop where
  init : ∀ s, sys.init s → ∃ t, abs.init t ∧ R s t
  step : ∀ s a s' t, R s t → sys.step s a = some s' → ∃ bs t', abs.run t bs = some t' ∧ R s' t'

/-- A reachable state is related to a reachable one. -/
theorem Refines.reachable {R : σ → τ → Prop} (href : sys.Refines abs R) {s : σ}
    (h : sys.Reachable s) : ∃ t, abs.Reachable t ∧ R s t := by
  induction h with
  | init h =>
      obtain ⟨t, ht, hR⟩ := href.init _ h
      exact ⟨t, .init ht, hR⟩
  | step _ _ hs ih =>
      obtain ⟨t, ht, hR⟩ := ih
      obtain ⟨bs, t', hrun, hR'⟩ := href.step _ _ _ _ hR hs
      exact ⟨t', ht.run (fun _ _ _ => trivial) hrun, hR'⟩

/-! ### What can still be reached -/

/-- `C` says where the goal can be reached by steps that meet the condition, if no such step
brings it about and if each state in which it holds has one that comes nearer to the goal. -/
theorem can_reach_iff {δ : Type} [Preorder δ] [WellFoundedLT δ] {ok : σ → α → Prop}
    {I C G : σ → Prop} (rank : σ → δ)
    (hinv : ∀ s a s', I s → sys.step s a = some s' → I s')
    (hgoal : ∀ s, G s → C s)
    (hback : ∀ s a s', I s → ok s a → sys.step s a = some s' → C s' → C s)
    (hnext : ∀ s, I s → C s →
      G s ∨ ∃ a s', ok s a ∧ sys.step s a = some s' ∧ C s' ∧ rank s' < rank s) {s : σ}
    (h : I s) : (∃ as u, sys.Meets ok s as ∧ sys.run s as = some u ∧ G u) ↔ C s := by
  constructor
  · rintro ⟨as, u, hmeets, hrun, hu⟩
    induction as generalizing s with
    | nil =>
        cases hrun
        exact hgoal _ hu
    | cons a rest ih =>
        obtain ⟨t, hst, hrest⟩ := run_cons.mp hrun
        exact hback _ _ _ h hmeets.1 hst (ih (hinv _ _ _ h hst) (hmeets.2 t hst) hrest)
  · intro hC
    induction hr : rank s using WellFoundedLT.induction generalizing s with
    | ind r ih =>
        subst hr
        rcases hnext s h hC with hg | ⟨a, t, hok, hst, hCt, hlt⟩
        · exact ⟨[], s, trivial, rfl, hg⟩
        · obtain ⟨as, u, hmeets, hrun, hu⟩ := ih _ hlt (hinv _ _ _ h hst) hCt rfl
          refine ⟨a :: as, u, ⟨hok, fun t' ht' => ?_⟩, run_cons.mpr ⟨t, hst, hrun⟩, hu⟩
          rw [hst] at ht'
          cases ht'
          exact hmeets

/-! ### Infinite runs -/

/-- An infinite run whose steps all meet `ok`: its states, and the action taken in each. -/
structure Run (sys : TransitionSystem σ α) (ok : σ → α → Prop) where
  state : ℕ → σ
  action : ℕ → α
  meets : ∀ n, ok (state n) (action n)
  step : ∀ n, sys.step (state n) (action n) = some (state (n + 1))

namespace Run

variable {ok : σ → α → Prop} {mine : α → Prop}

/-- If from some point on one of the actions is always enabled, one of them is taken later. -/
def WeaklyFair (r : sys.Run ok) (mine : α → Prop) : Prop :=
  ∀ n, (∀ m, n ≤ m → ∃ a, mine a ∧ (sys.step (r.state m) a).isSome) →
    ∃ m, n ≤ m ∧ mine (r.action m)

/-- What every step keeps is kept from any point on. -/
theorem keeps (r : sys.Run ok) {I : σ → Prop}
    (hstep : ∀ s a s', I s → ok s a → sys.step s a = some s' → I s') {n m : ℕ} (hnm : n ≤ m)
    (h : I (r.state n)) : I (r.state m) := by
  induction hnm with
  | refl => exact h
  | step _ ih => exact hstep _ _ _ ih (r.meets _) (r.step _)

/-- The states of a run that begins in a reachable one are reachable. -/
theorem reachable (r : sys.Run ok) (h : sys.ReachableIf ok (r.state 0)) (n : ℕ) :
    sys.ReachableIf ok (r.state n) :=
  r.keeps (fun _ _ _ hs hok hstep => hs.step hok hstep) (Nat.zero_le n) h

/-- Finitely many things that happen and stay have all happened at some point. -/
theorem eventually_all (r : sys.Run ok) {γ : Type} {P : γ → σ → Prop}
    (hstay : ∀ x n m, n ≤ m → P x (r.state n) → P x (r.state m)) :
    ∀ {xs : List γ}, (∀ x ∈ xs, ∃ n, P x (r.state n)) → ∃ n, ∀ x ∈ xs, P x (r.state n) := by
  intro xs
  induction xs with
  | nil =>
      intro _
      exact ⟨0, fun x hx => by cases hx⟩
  | cons x rest ih =>
      intro h
      obtain ⟨n, hn⟩ := h x List.mem_cons_self
      obtain ⟨m, hm⟩ := ih fun y hy => h y (List.mem_cons_of_mem x hy)
      refine ⟨max n m, fun y hy => ?_⟩
      rcases List.mem_cons.mp hy with rfl | hy
      · exact hstay y n _ (le_max_left n m) hn
      · exact hstay y m _ (le_max_right n m) (hm y hy)

/-- A fair run comes to the goal if up to there one of the actions is always enabled, each of
them lowers the rank, and no other action raises it. -/
theorem reaches (r : sys.Run ok) (hfair : r.WeaklyFair mine) (I goal : σ → Prop) (rank : σ → ℕ)
    (hstep : ∀ s a s', I s → ok s a → sys.step s a = some s' →
      goal s' ∨ I s' ∧ rank s' ≤ rank s ∧ (mine a → rank s' < rank s))
    (henabled : ∀ s, I s → ∃ a, mine a ∧ (sys.step s a).isSome) {n : ℕ} (h : I (r.state n)) :
    ∃ m, goal (r.state m) := by
  by_contra hc
  push Not at hc
  have hnext : ∀ m, I (r.state m) → I (r.state (m + 1)) ∧
      rank (r.state (m + 1)) ≤ rank (r.state m) ∧
      (mine (r.action m) → rank (r.state (m + 1)) < rank (r.state m)) := fun m hI =>
    (hstep _ _ _ hI (r.meets m) (r.step m)).resolve_left (hc (m + 1))
  have hI : ∀ m, n ≤ m → I (r.state m) := by
    intro m hnm
    induction hnm with
    | refl => exact h
    | step _ ih => exact (hnext _ ih).1
  have hle : ∀ k m, n ≤ k → k ≤ m → rank (r.state m) ≤ rank (r.state k) := by
    intro k m hnk hkm
    induction hkm with
    | refl => exact le_rfl
    | step hkm ih => exact (hnext _ (hI _ (hnk.trans hkm))).2.1.trans ih
  -- the rank would go down for ever
  have hdown : ∀ x k, n ≤ k → rank (r.state k) = x → False := by
    intro x
    induction x using Nat.strong_induction_on with
    | _ x ih =>
        intro k hnk hx
        obtain ⟨m, hkm, hmine⟩ := hfair k fun m hkm => henabled _ (hI m (hnk.trans hkm))
        have hlt := (hnext m (hI m (hnk.trans hkm))).2.2 hmine
        exact ih _ (hx ▸ hlt.trans_le (hle k m hnk hkm)) (m + 1) (by omega) rfl
  exact hdown _ n le_rfl rfl

/-- A run comes to the goal if in each state the actions of one party help: one of them is taken
some time if the party goes on helping, they lower the rank, and no other action raises it or
hands over to another party. -/
theorem reaches_served (r : sys.Run ok) {κ δ : Type} [Preorder δ] [WellFoundedLT δ]
    (party : κ → α → Prop) (helpful : σ → κ) (I goal : σ → Prop) (rank : σ → δ) {n : ℕ}
    (hstep : ∀ m, n ≤ m → I (r.state m) → goal (r.state (m + 1)) ∨ I (r.state (m + 1)) ∧
      (rank (r.state (m + 1)) < rank (r.state m) ∨ rank (r.state (m + 1)) = rank (r.state m) ∧
        helpful (r.state (m + 1)) = helpful (r.state m) ∧
        ¬ party (helpful (r.state m)) (r.action m)))
    (hserved : ∀ m, n ≤ m →
      (∀ l, m ≤ l → I (r.state l) ∧ helpful (r.state l) = helpful (r.state m)) →
      ∃ l, m ≤ l ∧ party (helpful (r.state m)) (r.action l))
    (h : I (r.state n)) : ∃ m, n ≤ m ∧ goal (r.state m) := by
  induction hx : rank (r.state n) using WellFoundedLT.induction generalizing n with
  | ind x ih =>
      subst hx
      by_contra hc
      push Not at hc
      -- the party that helps goes on helping as long as the rank stays
      have hstay : ∀ m, n ≤ m → I (r.state m) ∧ rank (r.state m) = rank (r.state n) ∧
          helpful (r.state m) = helpful (r.state n) := by
        intro m hnm
        induction hnm with
        | refl => exact ⟨h, rfl, rfl⟩
        | @step m hle hm =>
            have hnm : n ≤ m := hle
            obtain ⟨hI, hrank, hhelp⟩ := hm
            rcases hstep m hnm hI with hgoal | ⟨hI', hlt | ⟨heq, hsame, -⟩⟩
            · exact absurd hgoal (hc (m + 1) (by omega))
            · obtain ⟨k, hk, hgoal⟩ := ih _ (hrank ▸ hlt)
                (fun k hk => hstep k (by omega)) (fun k hk => hserved k (by omega)) hI' rfl
              exact absurd hgoal (hc k (by omega))
            · exact ⟨hI', heq.trans hrank, hsame.trans hhelp⟩
      obtain ⟨m, hnm, hparty⟩ := hserved n le_rfl fun m hnm =>
        ⟨(hstay m hnm).1, (hstay m hnm).2.2⟩
      obtain ⟨hI, hrank, hhelp⟩ := hstay m hnm
      obtain ⟨-, hrank', -⟩ := hstay (m + 1) (by omega)
      rcases hstep m hnm hI with hgoal | ⟨-, hlt | ⟨-, -, hnot⟩⟩
      · exact hc (m + 1) (by omega) hgoal
      · rw [hrank', hrank] at hlt
        exact lt_irrefl _ hlt
      · exact hnot (hhelp ▸ hparty)

/-- In a fair run it is enough that the party that helps always has an action it can take. -/
theorem reaches_helpful (r : sys.Run ok) {κ : Type} {party : κ → α → Prop} (helpful : σ → κ)
    (hfair : ∀ k, r.WeaklyFair (party k)) (I goal : σ → Prop) (rank : σ → ℕ) {n : ℕ}
    (hstep : ∀ m, n ≤ m → I (r.state m) → goal (r.state (m + 1)) ∨ I (r.state (m + 1)) ∧
      (rank (r.state (m + 1)) < rank (r.state m) ∨ rank (r.state (m + 1)) = rank (r.state m) ∧
        helpful (r.state (m + 1)) = helpful (r.state m) ∧
        ¬ party (helpful (r.state m)) (r.action m)))
    (henabled : ∀ s, I s → ∃ a, party (helpful s) a ∧ (sys.step s a).isSome)
    (h : I (r.state n)) : ∃ m, n ≤ m ∧ goal (r.state m) := by
  refine r.reaches_served party helpful I goal rank hstep (fun m _ hstay => ?_) h
  refine hfair _ m fun l hml => ?_
  obtain ⟨hI, hhelp⟩ := hstay l hml
  obtain ⟨a, ha, hs⟩ := henabled _ hI
  exact ⟨a, hhelp ▸ ha, hs⟩

/-- The run that goes on for ever with one choice of an action in each state. -/
def forever {J : σ → Prop} (act : { s // J s } → α) (next : { s // J s } → { s // J s })
    (hok : ∀ u, ok u.1 (act u)) (h : ∀ u, sys.step u.1 (act u) = some (next u).1)
    (u : { s // J s }) : sys.Run ok where
  state n := (next^[n] u).1
  action n := act (next^[n] u)
  meets n := hok _
  step n := by
    rw [Function.iterate_succ_apply']
    exact h _

/-- Where the actions can always go on within `J`, a fair run never leaves it. -/
theorem exists_forever {J : σ → Prop}
    (hstep : ∀ s, J s → ∃ a s', mine a ∧ ok s a ∧ sys.step s a = some s' ∧ J s') {s : σ}
    (h : J s) : ∃ r : sys.Run ok, r.state 0 = s ∧ r.WeaklyFair mine ∧ ∀ n, J (r.state n) := by
  choose act next hmine hok hs hJ using hstep
  refine ⟨forever (fun u => act u.1 u.2) (fun u => ⟨next u.1 u.2, hJ u.1 u.2⟩)
    (fun u => hok u.1 u.2) (fun u => hs u.1 u.2) ⟨s, h⟩, rfl, fun n _ => ?_, fun n => ?_⟩
  · exact ⟨n, le_rfl, hmine _ _⟩
  · exact Subtype.prop _

/-- A run with one more step at its beginning. -/
def cons (r : sys.Run ok) {s : σ} {a : α} (hok : ok s a) (hs : sys.step s a = some (r.state 0)) :
    sys.Run ok where
  state n := Nat.casesOn n s r.state
  action n := Nat.casesOn n a r.action
  meets n := by
    cases n with
    | zero => exact hok
    | succ n => exact r.meets n
  step n := by
    cases n with
    | zero => exact hs
    | succ n => exact r.step n

/-- A finite run before an infinite one.  `P` is what has been seen on the way. -/
theorem exists_prepend {P : σ → Prop} [∀ s a, Decidable (ok s a ∧ P s)] :
    ∀ {as : List α} {s : σ} (r : sys.Run ok),
      sys.runIf (fun s a => ok s a ∧ P s) s as = some (r.state 0) →
      ∃ r' : sys.Run ok, r'.state 0 = s ∧ (∀ n, r'.state (as.length + n) = r.state n) ∧
        (r.WeaklyFair mine → r'.WeaklyFair mine) ∧ ∀ n < as.length, P (r'.state n) := by
  intro as
  induction as with
  | nil =>
      intro s r hrun
      refine ⟨r, (Option.some.inj hrun).symm, fun n => ?_, fun h => h, fun n hn => ?_⟩
      · rw [List.length_nil, Nat.zero_add]
      · exact absurd hn (Nat.not_lt_zero n)
  | cons a rest ih =>
      intro s r hrun
      rw [TransitionSystem.runIf, List.foldlM_cons] at hrun
      obtain ⟨t, ht, hrest⟩ := Option.bind_eq_some_iff.mp hrun
      obtain ⟨⟨hok, hP⟩, hst⟩ := Option.ite_none_right_eq_some.mp ht
      obtain ⟨r', rfl, hlater, hfair, hseen⟩ := ih r hrest
      refine ⟨r'.cons hok hst, rfl, fun n => ?_, fun h n henabled => ?_, fun n hn => ?_⟩
      · rw [List.length_cons, Nat.add_right_comm]
        exact hlater n
      · obtain ⟨m, hnm, hm⟩ := hfair h (n - 1) fun m hnm => henabled (m + 1) (by omega)
        exact ⟨m + 1, by omega, hm⟩
      · cases n with
        | zero => exact hP
        | succ n => exact hseen n (Nat.lt_of_succ_lt_succ hn)

/-- A run that goes on within `J` is fair to every party if each step is one of the party, comes
nearer to such a step, or starts where the party can do nothing. -/
theorem exists_fair {κ : Type} {party : κ → α → Prop} {J : σ → Prop} (rank : κ → σ → ℕ)
    (hstep : ∀ s, J s → ∃ a s', ok s a ∧ sys.step s a = some s' ∧ J s' ∧
      ∀ k, (∃ b, party k b ∧ (sys.step s b).isSome) → party k a ∨ rank k s' < rank k s) {s : σ}
    (h : J s) : ∃ r : sys.Run ok, r.state 0 = s ∧ (∀ k, r.WeaklyFair (party k)) ∧
      ∀ n, J (r.state n) := by
  choose act next hok hs hJ hnear using hstep
  obtain ⟨r, hr⟩ : ∃ r : sys.Run ok, r = forever (fun u => act u.1 u.2)
      (fun u => ⟨next u.1 u.2, hJ u.1 u.2⟩) (fun u => hok u.1 u.2) (fun u => hs u.1 u.2)
      (⟨s, h⟩ : { s // J s }) := ⟨_, rfl⟩
  have hJr : ∀ n, J (r.state n) := fun n => by
    rw [hr]
    exact Subtype.prop _
  have hnext : ∀ n k, (∃ b, party k b ∧ (sys.step (r.state n) b).isSome) →
      party k (r.action n) ∨ rank k (r.state (n + 1)) < rank k (r.state n) := by
    intro n k hk
    rw [hr] at hk ⊢
    have hmore := hnear _ (Subtype.prop _) k hk
    simp only [forever, Function.iterate_succ_apply']
    exact hmore
  refine ⟨r, by rw [hr]; rfl, fun k n henabled => ?_, hJr⟩
  by_contra hc
  push Not at hc
  -- without a step of the party its rank would go down for ever
  have hdown : ∀ x m, n ≤ m → rank k (r.state m) = x → False := by
    intro x
    induction x using Nat.strong_induction_on with
    | _ x ih =>
        intro m hnm hx
        rcases hnext m k (henabled m hnm) with hparty | hlt
        · exact hc m hnm hparty
        · exact ih _ (hx ▸ hlt) (m + 1) (by omega) rfl
  exact hdown _ n le_rfl rfl

end Run

end TransitionSystem
