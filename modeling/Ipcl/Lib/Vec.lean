/-
Loops that fill a vector.

The element-wise loops of a C++ program run an index over a range, read one or
two vectors at it and write a third.  As a fallible map over `List.range` such a
loop succeeds with a known list as soon as every round does, and that is the only
fact the proofs need of it.
-/
import Mathlib

namespace Vec

variable {ε α β γ : Type}

/-- A loop whose rounds produce the elements of `ys` produces `ys`. -/
theorem mapM_range_ok {f : Nat → Except ε β} :
    ∀ (ys : List β), (∀ i (hi : i < ys.length), f i = .ok ys[i]) →
      (List.range ys.length).mapM f = .ok ys := by
  intro ys
  induction ys using List.reverseRecOn with
  | nil => intro _; rfl
  | append_singleton ys y ih =>
      intro hall
      have hinit : (List.range ys.length).mapM f = .ok ys := by
        refine ih fun i hi => ?_
        have := hall i (by simp; omega)
        rwa [List.getElem_append_left hi] at this
      have hlast : f ys.length = .ok y := by
        have := hall ys.length (by simp)
        simpa using this
      rw [List.length_append, List.length_singleton, List.range_succ, List.mapM_append, hinit]
      simp [hlast]
      rfl

/-- The same when the length is known by another name. -/
theorem mapM_range_eq_ok {f : Nat → Except ε β} {n : Nat} {ys : List β} (hn : ys.length = n)
    (hall : ∀ i (hi : i < ys.length), f i = .ok ys[i]) :
    (List.range n).mapM f = .ok ys := by
  subst hn
  exact mapM_range_ok ys hall

/-- A fallible map that succeeds on every element is a map. -/
theorem mapM_ok {f : α → Except ε β} {g : α → β} :
    ∀ (xs : List α), (∀ x ∈ xs, f x = .ok (g x)) → xs.mapM f = .ok (xs.map g) := by
  intro xs
  induction xs with
  | nil => intro _; rfl
  | cons x rest ih =>
      intro hall
      rw [List.mapM_cons, hall x (by simp), ih fun y hy => hall y (by simp [hy])]
      rfl

/-- A fallible map that succeeds has succeeded on every element, and its results are theirs. -/
theorem mapM_ok_mem {f : α → Except ε β} :
    ∀ {xs : List α} {ys : List β}, xs.mapM f = .ok ys →
      (∀ x ∈ xs, ∃ y ∈ ys, f x = .ok y) ∧ ∀ y ∈ ys, ∃ x ∈ xs, f x = .ok y := by
  intro xs
  induction xs with
  | nil =>
      intro ys h
      cases h
      exact ⟨nofun, nofun⟩
  | cons x rest ih =>
      intro ys h
      rw [List.mapM_cons] at h
      cases hx : f x with
      | error e => rw [hx] at h; cases h
      | ok y =>
          rw [hx] at h
          cases hrest : rest.mapM f with
          | error e => rw [hrest] at h; cases h
          | ok zs =>
              rw [hrest] at h
              cases h
              obtain ⟨hdone, hfrom⟩ := ih hrest
              refine ⟨?_, ?_⟩
              · intro z hz
                rcases List.mem_cons.mp hz with rfl | hz
                · exact ⟨y, List.mem_cons_self, hx⟩
                · obtain ⟨w, hw, hzw⟩ := hdone z hz
                  exact ⟨w, List.mem_cons_of_mem _ hw, hzw⟩
              · intro z hz
                rcases List.mem_cons.mp hz with rfl | hz
                · exact ⟨x, List.mem_cons_self, hx⟩
                · obtain ⟨w, hw, hwz⟩ := hfrom z hz
                  exact ⟨w, List.mem_cons_of_mem _ hw, hwz⟩

theorem length_of_mapM_ok {f : α → Except ε β} :
    ∀ {xs : List α} {ys : List β}, xs.mapM f = .ok ys → ys.length = xs.length := by
  intro xs
  induction xs with
  | nil =>
      intro ys h
      cases h
      rfl
  | cons x rest ih =>
      intro ys h
      rw [List.mapM_cons] at h
      cases hx : f x with
      | error e => rw [hx] at h; cases h
      | ok y =>
          cases hrest : rest.mapM f with
          | error e => rw [hx, hrest] at h; cases h
          | ok zs =>
              rw [hx, hrest] at h
              cases h
              rw [List.length_cons, List.length_cons, ih hrest]

/-- A fallible map that fails has failed on an element. -/
theorem mapM_error_mem {f : α → Except ε β} {e : ε} :
    ∀ {xs : List α}, xs.mapM f = .error e → ∃ x ∈ xs, f x = .error e := by
  intro xs
  induction xs with
  | nil => intro h; cases h
  | cons x rest ih =>
      intro h
      rw [List.mapM_cons] at h
      cases hx : f x with
      | error e' =>
          rw [hx] at h
          cases h
          exact ⟨x, List.mem_cons_self, hx⟩
      | ok y =>
          rw [hx] at h
          cases hrest : rest.mapM f with
          | error e' =>
              rw [hrest] at h
              cases h
              obtain ⟨z, hz, hfz⟩ := ih hrest
              exact ⟨z, List.mem_cons_of_mem _ hz, hfz⟩
          | ok zs => rw [hrest] at h; cases h

/-! ### Folding over a range -/

variable {σ : Type}

/-- A loop whose round `i` leads from `state i` to `state (i + 1)`. -/
theorem foldlM_range_ok {f : σ → ℕ → Except ε σ} (state : ℕ → σ) :
    ∀ n, (∀ i < n, f (state i) i = .ok (state (i + 1))) →
      (List.range n).foldlM f (state 0) = .ok (state n) := by
  intro n
  induction n with
  | zero => intro _; rfl
  | succ n ih =>
      intro hstep
      rw [List.range_succ, List.foldlM_append, ih fun i hi => hstep i (by omega)]
      show List.foldlM f (state n) [n] = _
      rw [List.foldlM_cons, hstep n (by omega)]
      rfl

/-- A loop every round of which keeps an invariant. -/
theorem foldlM_range_inv {f : σ → ℕ → Except ε σ} {I : ℕ → σ → Prop} {s : σ} (hinit : I 0 s) :
    ∀ n, (∀ i < n, ∀ t, I i t → ∃ t', f t i = .ok t' ∧ I (i + 1) t') →
      ∃ t, (List.range n).foldlM f s = .ok t ∧ I n t := by
  intro n
  induction n with
  | zero => intro _; exact ⟨s, rfl, hinit⟩
  | succ n ih =>
      intro hstep
      obtain ⟨t, ht, hI⟩ := ih fun i hi => hstep i (by omega)
      obtain ⟨t', ht', hI'⟩ := hstep n (by omega) t hI
      refine ⟨t', ?_, hI'⟩
      rw [List.range_succ, List.foldlM_append, ht]
      show List.foldlM f t [n] = _
      rw [List.foldlM_cons, ht']
      rfl

/-- Two loops whose rounds do the same. -/
theorem foldlM_congr {f g : σ → α → Except ε σ} :
    ∀ {xs : List α} (s : σ), (∀ x ∈ xs, ∀ s, f s x = g s x) → xs.foldlM f s = xs.foldlM g s := by
  intro xs
  induction xs with
  | nil => intro s _; rfl
  | cons x rest ih =>
      intro s hall
      rw [List.foldlM_cons, List.foldlM_cons, hall x (by simp)]
      exact bind_congr fun t => ih t fun y hy => hall y (by simp [hy])

/-- A loop that ends well has ended every round well. -/
theorem foldlM_ok_mem {f : σ → α → Except ε σ} :
    ∀ {xs : List α} {s t : σ}, xs.foldlM f s = .ok t →
      ∀ x ∈ xs, ∃ s' t', f s' x = .ok t' := by
  intro xs
  induction xs with
  | nil => intro s t _ x hx; cases hx
  | cons y rest ih =>
      intro s t h x hx
      rw [List.foldlM_cons] at h
      cases hy : f s y with
      | error e => rw [hy] at h; cases h
      | ok s' =>
          rw [hy] at h
          rcases List.mem_cons.mp hx with rfl | hx
          · exact ⟨s, s', hy⟩
          · exact ih h x hx

/-- What every round keeps is kept by a loop that ends well. -/
theorem foldlM_ok_inv {f : σ → α → Except ε σ} {I : σ → Prop} :
    ∀ {xs : List α} {s t : σ}, (∀ x ∈ xs, ∀ s s', I s → f s x = .ok s' → I s') → I s →
      xs.foldlM f s = .ok t → I t := by
  intro xs
  induction xs with
  | nil =>
      intro s t _ hs h
      cases h
      exact hs
  | cons x rest ih =>
      intro s t hstep hs h
      rw [List.foldlM_cons] at h
      cases hx : f s x with
      | error e => rw [hx] at h; cases h
      | ok s' =>
          rw [hx] at h
          exact ih (fun y hy => hstep y (by simp [hy])) (hstep x (by simp) s s' hs hx) h

/-- A loop that fails has failed in a round. -/
theorem foldlM_error_mem {f : σ → α → Except ε σ} {e : ε} :
    ∀ {xs : List α} {s : σ}, xs.foldlM f s = .error e →
      ∃ x ∈ xs, ∃ s', f s' x = .error e := by
  intro xs
  induction xs with
  | nil => intro s h; cases h
  | cons y rest ih =>
      intro s h
      rw [List.foldlM_cons] at h
      cases hy : f s y with
      | error e' =>
          rw [hy] at h
          cases h
          exact ⟨y, List.mem_cons_self, s, hy⟩
      | ok s' =>
          rw [hy] at h
          obtain ⟨x, hx, t, ht⟩ := ih h
          exact ⟨x, List.mem_cons_of_mem _ hx, t, ht⟩

/-- Batch after batch is element after element. -/
theorem foldlM_flatten {f : σ → α → Except ε σ} :
    ∀ (batches : List (List α)) (s : σ),
      batches.foldlM (fun s batch => batch.foldlM f s) s = batches.flatten.foldlM f s := by
  intro batches
  induction batches with
  | nil => intro s; rfl
  | cons batch rest ih =>
      intro s
      rw [List.foldlM_cons, List.flatten_cons, List.foldlM_append]
      exact bind_congr ih

/-- Writing every element of a list over a list of the same length. -/
theorem foldlM_range_fill {f : List α → ℕ → Except ε (List α)} {ys init : List α}
    (hlen : init.length = ys.length)
    (hstep : ∀ i (hi : i < ys.length) (xs : List α), xs.length = ys.length →
      f xs i = .ok (xs.set i ys[i])) :
    (List.range ys.length).foldlM f init = .ok ys := by
  have hfill := foldlM_range_ok (fun i => ys.take i ++ init.drop i) ys.length (f := f) (by
    intro i hi
    rw [hstep i hi _ (by simp; omega), List.set_append_right _ _ (by simp),
      List.length_take_of_le hi.le, Nat.sub_self, List.drop_eq_getElem_cons (by omega),
      List.set_cons_zero, List.take_succ_eq_append_getElem hi, List.append_assoc,
      List.singleton_append])
  have hdrop : init.drop ys.length = [] := List.drop_of_length_le hlen.le
  simpa [hdrop] using hfill

/-! ### Rows of numbers -/

/-- Full rows of `b` consecutive numbers. -/
theorem flatten_rows (q b : ℕ) :
    ((List.range q).map fun j => (List.range b).map fun i => j * b + i).flatten
      = List.range (q * b) := by
  induction q with
  | zero => simp
  | succ q ih =>
      rw [List.range_succ, List.map_append, List.flatten_append, ih, Nat.succ_mul,
        List.range_add]
      simp

/-- Full rows and a last one that may be shorter. -/
theorem flatten_rows_append (q b r : ℕ) :
    ((List.range q).map fun j => (List.range b).map fun i => j * b + i).flatten
        ++ ((List.range r).map fun i => q * b + i)
      = List.range (q * b + r) := by
  rw [flatten_rows, List.range_add]

/-! ### Broadcasting -/

/-- Element by element, with a right operand of one element repeated. -/
def broadcast (f : α → β → γ) (xs : List α) : List β → List γ
  | [y] => xs.map fun x => f x y
  | ys => List.zipWith f xs ys

theorem broadcast_singleton (f : α → β → γ) (xs : List α) (y : β) :
    broadcast f xs [y] = xs.map fun x => f x y := rfl

/-- Where the lengths agree, nothing is repeated. -/
theorem broadcast_of_length_eq (f : α → β → γ) {xs : List α} {ys : List β}
    (hlen : ys.length = xs.length) : broadcast f xs ys = List.zipWith f xs ys := by
  match ys, hlen with
  | [], _ => rfl
  | [y], hlen =>
      obtain ⟨x, rfl⟩ := List.length_eq_one_iff.mp hlen.symm
      rfl
  | y :: z :: rest, _ => rfl

theorem length_broadcast (f : α → β → γ) {xs : List α} {ys : List β}
    (hlen : ys.length = xs.length ∨ ys.length = 1) :
    (broadcast f xs ys).length = xs.length := by
  rcases hlen with hlen | hlen
  · rw [broadcast_of_length_eq f hlen, List.length_zipWith, hlen, min_self]
  · obtain ⟨y, rfl⟩ := List.length_eq_one_iff.mp hlen
    rw [broadcast_singleton, List.length_map]

theorem mem_broadcast {f : α → β → γ} {xs : List α} {ys : List β} {z : γ}
    (hz : z ∈ broadcast f xs ys) : ∃ x ∈ xs, ∃ y ∈ ys, z = f x y := by
  have hzip : z ∈ List.zipWith f xs ys → ∃ x ∈ xs, ∃ y ∈ ys, z = f x y := by
    intro hz
    rw [← List.map_uncurry_zip_eq_zipWith] at hz
    obtain ⟨⟨x, y⟩, hxy, rfl⟩ := List.mem_map.mp hz
    exact ⟨x, (List.of_mem_zip hxy).1, y, (List.of_mem_zip hxy).2, rfl⟩
  match ys with
  | [] => exact hzip hz
  | [y] =>
      obtain ⟨x, hx, rfl⟩ := List.mem_map.mp hz
      exact ⟨x, hx, y, List.mem_singleton_self y, rfl⟩
  | y :: w :: rest => exact hzip hz

/-- Every right operand is paired with some left operand. -/
theorem exists_broadcast {xs : List α} {ys : List β} (hne : xs ≠ [])
    (hlen : ys.length = xs.length ∨ ys.length = 1) {y : β} (hy : y ∈ ys) :
    ∃ x ∈ xs, (x, y) ∈ broadcast Prod.mk xs ys := by
  rcases hlen with hlen | hlen
  · rw [broadcast_of_length_eq _ hlen]
    obtain ⟨i, hi, rfl⟩ := List.getElem_of_mem hy
    have hi' : i < (List.zipWith Prod.mk xs ys).length := by
      rw [List.length_zipWith]
      omega
    refine ⟨xs[i], List.getElem_mem _, ?_⟩
    rw [← List.getElem_zipWith (h := hi')]
    exact List.getElem_mem hi'
  · obtain ⟨z, rfl⟩ := List.length_eq_one_iff.mp hlen
    obtain ⟨x, hx⟩ := List.exists_mem_of_ne_nil xs hne
    cases List.mem_singleton.mp hy
    exact ⟨x, hx, List.mem_map_of_mem hx⟩

theorem map_broadcast {δ : Type} (g : γ → δ) (f : α → β → γ) (xs : List α) (ys : List β) :
    (broadcast f xs ys).map g = broadcast (fun x y => g (f x y)) xs ys := by
  match ys with
  | [] => rw [broadcast, broadcast, List.map_zipWith] <;> simp
  | [y] => rw [broadcast_singleton, broadcast_singleton, List.map_map]; rfl
  | y :: z :: rest => rw [broadcast, broadcast, List.map_zipWith] <;> simp

/-- What depends on the left operand alone. -/
theorem broadcast_left (g : α → γ) {xs : List α} {ys : List β}
    (hlen : ys.length = xs.length ∨ ys.length = 1) :
    broadcast (fun x _ => g x) xs ys = xs.map g := by
  rcases hlen with hlen | hlen
  · rw [broadcast_of_length_eq _ hlen]
    apply List.ext_getElem
    · simp [hlen]
    · intro i hi hi'
      simp
  · obtain ⟨y, rfl⟩ := List.length_eq_one_iff.mp hlen
    rfl

/-- The right operand, as often as it is used. -/
theorem broadcast_right {xs : List α} {ys : List β} (hlen : ys.length = xs.length) :
    broadcast (fun _ y => y) xs ys = ys := by
  rw [broadcast_of_length_eq _ hlen]
  apply List.ext_getElem
  · simp [hlen]
  · intro i hi hi'
    simp

/-- Two operations that keep a relation keep it under broadcasting. -/
theorem forall₂_broadcast {α' β' γ' : Type} {R : α → α' → Prop} {S : β → β' → Prop}
    {T : γ → γ' → Prop} {f : α → β → γ} {g : α' → β' → γ'}
    (hfg : ∀ x x' y y', R x x' → S y y' → T (f x y) (g x' y'))
    {xs : List α} {xs' : List α'} {ys : List β} {ys' : List β'}
    (hx : List.Forall₂ R xs xs') (hy : List.Forall₂ S ys ys') :
    List.Forall₂ T (broadcast f xs ys) (broadcast g xs' ys') := by
  have hzip : ∀ {ys : List β} {ys' : List β'}, List.Forall₂ S ys ys' →
      List.Forall₂ T (List.zipWith f xs ys) (List.zipWith g xs' ys') := by
    induction hx with
    | nil =>
        intro ys ys' _
        simp
    | cons hxy _ ih =>
        intro ys ys' hy
        cases hy with
        | nil => simp
        | cons hs hrest => exact List.Forall₂.cons (hfg _ _ _ _ hxy hs) (ih hrest)
  cases hy with
  | nil => exact hzip List.Forall₂.nil
  | cons hs hrest =>
      cases hrest with
      | nil =>
          rw [broadcast_singleton, broadcast_singleton, List.forall₂_map_left_iff,
            List.forall₂_map_right_iff]
          exact hx.imp fun x x' hxx => hfg _ _ _ _ hxx hs
      | cons hs' hrest' => exact hzip (List.Forall₂.cons hs (List.Forall₂.cons hs' hrest'))

end Vec
