/-
Expressions over encrypted vectors.

An expression is a tree of the operations a user of the library has: encrypting a
vector, adding two ciphertexts, adding a vector of plaintexts and multiplying by
one.  `eval` runs the library's own functions over the tree under one public key
and keeps every ciphertext made on the way; `value` is the same tree over the
integers, where the right operand is repeated if it has one element.
-/
import Ipcl.CipherText

namespace Ipcl

inductive Expr where
  | encrypt (pt : List Int) (makeSecure : Bool)
  | addCT (a b : Expr)
  | addPT (a : Expr) (pt : List Int)
  | mulPT (a : Expr) (pt : List Int)
  deriving DecidableEq, Repr

/-- The ciphertext an evaluation ends with and all those it made. -/
structure Evaluation where
  result : CipherText
  made : List CipherText

namespace Expr

/-- Evaluation by the library, operands from left to right. -/
def eval (ipp : Ipp) (me : ModExp) (pk : PublicKey) : Expr → Rand Evaluation
  | encrypt pt makeSecure => do
      let c ← pk.encrypt ipp me (BaseText.ofVec pt) makeSecure
      pure ⟨c, [c]⟩
  | addCT a b => do
      let x ← a.eval ipp me pk
      let y ← b.eval ipp me pk
      let c ← (liftM (CipherText.addCT ipp x.result y.result) : Rand CipherText)
      pure ⟨c, c :: (x.made ++ y.made)⟩
  | addPT a pt => do
      let x ← a.eval ipp me pk
      let c ← CipherText.addPT ipp me x.result (BaseText.ofVec pt)
      -- `addPT` has encrypted its operand on the way, which draws nothing
      let b ← pk.encrypt ipp me (BaseText.ofVec pt) false
      pure ⟨c, c :: b :: x.made⟩
  | mulPT a pt => do
      let x ← a.eval ipp me pk
      let c ← (liftM (CipherText.mulPT me x.result (BaseText.ofVec pt)) : Rand CipherText)
      pure ⟨c, c :: x.made⟩

/-- Evaluation over the integers. -/
def value : Expr → List Int
  | encrypt pt _ => pt
  | addCT a b => Vec.broadcast (fun x y => x + y) a.value b.value
  | addPT a pt => Vec.broadcast (fun x y => x + y) a.value pt
  | mulPT a pt => Vec.broadcast (fun x k => k * x) a.value pt

/-- The length of the leftmost operand. -/
def length : Expr → Nat
  | encrypt pt _ => pt.length
  | addCT a _ => a.length
  | addPT a _ => a.length
  | mulPT a _ => a.length

/-- The random values an evaluation draws. -/
def draws : Expr → Nat
  | encrypt pt makeSecure => if makeSecure then pt.length else 0
  | addCT a b => a.draws + b.draws
  | addPT a _ => a.draws
  | mulPT a _ => a.draws

/-- The size rule of the operators: as long as the left operand, or one element. -/
def Fits (len len' : Nat) : Prop := len' = len ∨ len' = 1

/-- No vector is empty, every right operand fits, and every multiplier is a residue. -/
def WF (n : Nat) : Expr → Prop
  | encrypt pt _ => pt ≠ []
  | addCT a b => a.WF n ∧ b.WF n ∧ Fits a.length b.length
  | addPT a pt => a.WF n ∧ Fits a.length pt.length
  | mulPT a pt => a.WF n ∧ Fits a.length pt.length ∧ ∀ k ∈ pt, 0 ≤ k ∧ k < (n : Int)

theorem length_value {n : Nat} : ∀ {e : Expr}, e.WF n → e.value.length = e.length := by
  intro e
  induction e with
  | encrypt pt makeSecure => intro _; rfl
  | addCT a b iha ihb =>
      intro hwf
      obtain ⟨ha, hb, hfit⟩ := hwf
      rw [value, Vec.length_broadcast, iha ha]
      · rfl
      · rw [iha ha, ihb hb]
        exact hfit
  | addPT a pt iha =>
      intro hwf
      obtain ⟨ha, hfit⟩ := hwf
      rw [value, Vec.length_broadcast, iha ha]
      · rfl
      · rw [iha ha]
        exact hfit
  | mulPT a pt iha =>
      intro hwf
      obtain ⟨ha, hfit, -⟩ := hwf
      rw [value, Vec.length_broadcast, iha ha]
      · rfl
      · rw [iha ha]
        exact hfit

theorem length_pos {n : Nat} : ∀ {e : Expr}, e.WF n → 0 < e.length := by
  intro e
  induction e with
  | encrypt pt makeSecure => exact List.length_pos_iff.mpr
  | addCT a b iha _ => exact fun hwf => iha hwf.1
  | addPT a pt iha => exact fun hwf => iha hwf.1
  | mulPT a pt iha => exact fun hwf => iha hwf.1

end Expr

end Ipcl
