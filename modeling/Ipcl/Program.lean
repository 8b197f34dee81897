/-
Programs over ciphertexts.

A client of the library keeps variables, of ciphertexts and of plaintexts, and holds
some key pairs.  A program is a list of statements, each of which is one call of the
library with its operands and its target among the variables: encrypting and decrypting,
the operators, and the member functions that move single elements about.

`step` runs a statement by the library's own functions.  A variable that has not been
assigned is a default-constructed object.
-/
import Ipcl.BaseText
import Ipcl.CipherText
import Ipcl.PriKey

namespace Ipcl

namespace CipherText

/-- `getCipherText` -/
def getCipherText (ct : CipherText) (idx : Nat) : Result CipherText := do
  errorCheck (idx < ct.size) "CipherText::getCipherText index is out of range"
  let pk ← deref ct.pk
  let x ← elemAt ct.texts idx
  pure (ofNumber pk x)

/-- A member function of the base class that changes the object. -/
def viaBase (ct : CipherText) (f : BaseText → Result BaseText) : Result CipherText := do
  let t ← f ct.toBaseText
  pure { t with pk := ct.pk }

/-- `operator=` -/
def assign (ct other : CipherText) : CipherText :=
  { ct.toBaseText.assign other.toBaseText with pk := other.pk }

end CipherText

/-- The two keys of a pair. -/
structure KeyPair where
  pk : PublicKey
  sk : PrivateKey
  deriving DecidableEq, Repr

/-- A call of the library on variables.  The target comes first. -/
inductive Statement (κ : Type) where
  /-- `PlainText(const std::vector<BigNumber>&)` -/
  | load (p : Nat) (xs : List Int)
  | encrypt (d : Nat) (key : κ) (p : Nat) (makeSecure : Bool)
  | decrypt (p : Nat) (key : κ) (a : Nat) (crt : Bool)
  | addCT (d a b : Nat)
  | addPT (d a p : Nat)
  | mulPT (d a p : Nat)
  | rotate (d a : Nat) (shift : Int32)
  | getCipherText (d a idx : Nat)
  | assign (d a : Nat)
  /-- `getElement` of one variable and `insert` into another -/
  | insert (d pos a idx : Nat)
  /-- `getElement` of one variable and a write through `operator[]` of another -/
  | write (d pos a idx : Nat)
  | remove (d : Nat) (pos length : UInt64)
  | clear (d : Nat)
  deriving DecidableEq, Repr

/-- The variables of a client. -/
structure Variables where
  cipher : Nat → CipherText
  plain : Nat → PlainText

namespace Variables

/-- Only default-constructed objects, with what their memory held for a size. -/
def fresh (held : Nat) : Variables := ⟨fun _ => .fresh held, fun _ => BaseText.fresh held⟩

def setCipher (v : Variables) (d : Nat) (c : CipherText) : Variables :=
  { v with cipher := Function.update v.cipher d c }

def setPlain (v : Variables) (p : Nat) (t : PlainText) : Variables :=
  { v with plain := Function.update v.plain p t }

end Variables

namespace Statement

variable {κ : Type} (ipp : Ipp) (me : ModExp) (keys : κ → KeyPair)

/-- One statement. -/
def step (v : Variables) : Statement κ → Rand Variables
  | load p xs => pure (v.setPlain p (BaseText.ofVec xs))
  | encrypt d key p makeSecure => do
      let c ← (keys key).pk.encrypt ipp me (v.plain p) makeSecure
      pure (v.setCipher d c)
  | decrypt p key a crt => do
      let t ← (liftM (PrivateKey.decrypt ipp me ((keys key).sk.enableCRT crt) (v.cipher a)) :
        Rand PlainText)
      pure (v.setPlain p t)
  | addCT d a b => do
      let c ← (liftM (CipherText.addCT ipp (v.cipher a) (v.cipher b)) : Rand CipherText)
      pure (v.setCipher d c)
  | addPT d a p => do
      let c ← CipherText.addPT ipp me (v.cipher a) (v.plain p)
      pure (v.setCipher d c)
  | mulPT d a p => do
      let c ← (liftM (CipherText.mulPT me (v.cipher a) (v.plain p)) : Rand CipherText)
      pure (v.setCipher d c)
  | rotate d a shift => do
      let c ← (liftM (CipherText.rotate (v.cipher a) shift) : Rand CipherText)
      pure (v.setCipher d c)
  | getCipherText d a idx => do
      let c ← (liftM ((v.cipher a).getCipherText idx) : Rand CipherText)
      pure (v.setCipher d c)
  | assign d a => pure (v.setCipher d ((v.cipher d).assign (v.cipher a)))
  | insert d pos a idx => do
      let bn ← (liftM ((v.cipher a).getElement idx) : Rand Int)
      let c ← (liftM ((v.cipher d).viaBase (·.insert pos bn)) : Rand CipherText)
      pure (v.setCipher d c)
  | write d pos a idx => do
      let bn ← (liftM ((v.cipher a).getElement idx) : Rand Int)
      let c ← (liftM ((v.cipher d).viaBase (·.write pos bn)) : Rand CipherText)
      pure (v.setCipher d c)
  | remove d pos length => do
      let c ← (liftM ((v.cipher d).viaBase (·.remove pos length)) : Rand CipherText)
      pure (v.setCipher d c)
  | clear d => do
      let c ← (liftM ((v.cipher d).viaBase fun t => .ok t.clear) : Rand CipherText)
      pure (v.setCipher d c)

/-- A program, from its first statement on. -/
def run (prog : List (Statement κ)) (v : Variables) : Rand Variables :=
  prog.foldlM (step ipp me keys) v

end Statement

end Ipcl
