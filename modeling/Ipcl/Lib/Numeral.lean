/-
Numerals, most significant digit first.

Reading one is a loop that multiplies by the base and adds a digit.  The loop does not
ask that a digit be below the base, so what it makes of a list of values is a function of
the values, and it is strictly monotone in them.
-/
import Ipcl.Lib.Digits

namespace Numeral

/-- The loop that multiplies and adds. -/
def horner (b : ℕ) (ds : List ℕ) : ℕ := ds.foldl (fun x d => x * b + d) 0

variable {b : ℕ}

theorem horner_concat (b : ℕ) (ds : List ℕ) (d : ℕ) :
    horner b (ds ++ [d]) = horner b ds * b + d := by
  simp [horner]

theorem horner_eq_ofDigits (b : ℕ) (ds : List ℕ) : horner b ds = Nat.ofDigits b ds.reverse := by
  induction ds using List.reverseRecOn with
  | nil => rfl
  | append_singleton ds d ih =>
      rw [horner_concat, ih, List.reverse_append, List.reverse_singleton, List.singleton_append,
        Nat.ofDigits_cons]
      exact (Nat.add_comm _ _).trans (congrArg (d + ·) (Nat.mul_comm _ _))

/-- In more digits than it needs a number has zeros above its own. -/
theorem fixed_eq_digits (hb : 1 < b) {len v : ℕ} (h : v < b ^ len) :
    Digits.fixed b len v
      = Nat.digits b v ++ List.replicate (len - (Nat.digits b v).length) 0 := by
  induction len generalizing v with
  | zero =>
      have hzero : v = 0 := by
        rw [pow_zero] at h
        omega
      simp [hzero, Digits.fixed]
  | succ len ih =>
      have hdiv : v / b < b ^ len := by
        rw [pow_succ'] at h
        exact Nat.div_lt_of_lt_mul h
      rw [Digits.fixed_succ, ih hdiv]
      by_cases hv : v = 0
      · subst hv
        simp [List.replicate_succ]
      · rw [Nat.digits_def' hb (Nat.pos_of_ne_zero hv), List.length_cons, Nat.add_sub_add_right,
          List.cons_append]

/-- Without the zeros in front these are the digits of the number. -/
theorem dropWhile_reverse_fixed (hb : 1 < b) {len v : ℕ} (h : v < b ^ len) :
    (Digits.fixed b len v).reverse.dropWhile (· = 0) = (Nat.digits b v).reverse := by
  rw [fixed_eq_digits hb h, List.reverse_append, List.reverse_replicate,
    List.dropWhile_append_of_pos (by simp)]
  by_cases hv : v = 0
  · simp [hv]
  · have hne : Nat.digits b v ≠ [] := Nat.digits_ne_nil_iff_ne_zero.mpr hv
    have htop := Nat.getLast_digit_ne_zero b hv
    rw [← List.head_reverse (List.reverse_ne_nil_iff.mpr hne)] at htop
    obtain ⟨d, rest, hrev⟩ := List.exists_cons_of_ne_nil (List.reverse_ne_nil_iff.mpr hne)
    simp only [hrev, List.head_cons] at htop ⊢
    exact List.dropWhile_cons_of_neg (by simpa using htop)

/-- A value that is larger and digits none of which is smaller make a larger number. -/
theorem horner_from_lt {xs ys : List ℕ} (h : List.Forall₂ (· ≤ ·) xs ys) (hb : 0 < b) {x y : ℕ}
    (hxy : x < y) :
    xs.foldl (fun x d => x * b + d) x < ys.foldl (fun x d => x * b + d) y := by
  induction h generalizing x y with
  | nil => exact hxy
  | cons hle _ ih => exact ih (add_lt_add_of_lt_of_le (Nat.mul_lt_mul_of_pos_right hxy hb) hle)

/-- The loop is strictly monotone in the digits. -/
theorem horner_lt {xs ys : List ℕ} (h : List.Forall₂ (· ≤ ·) xs ys) (hb : 0 < b)
    (hne : xs ≠ ys) : horner b xs < horner b ys := by
  suffices hfrom : ∀ x, xs.foldl (fun x d => x * b + d) x < ys.foldl (fun x d => x * b + d) x by
    exact hfrom 0
  induction h with
  | nil => exact absurd rfl hne
  | @cons d e ds es hle hrest ih =>
      intro x
      by_cases hde : d = e
      · subst hde
        exact ih (fun heq => hne (congrArg _ heq)) _
      · exact horner_from_lt hrest hb (Nat.add_lt_add_left (lt_of_le_of_ne hle hde) _)

end Numeral
