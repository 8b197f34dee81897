/-
What a program means.

The same statements over vectors of integers: no key is used but for its modulus, and
nothing is random.  A plaintext variable holds a vector; a ciphertext variable holds one
as well, beside the key it is under.  Encrypting copies and decrypting reduces modulo the
key's modulus.

A client sees two things: the plaintexts it is handed, and the exceptions.  So the tests
are made here with the texts the library throws, and what goes beyond the tests is
`undefined`: reading a variable that was never assigned, multiplying by what is no
exponent or an empty vector, raising several elements to an exponent that is longer than
the modulus of the ciphertexts, moving an element under another modulus, more elements
than the counters of the library's loops reach, positions that its casts would change.
-/
import Ipcl.Lib.Cyclic
import Ipcl.Program

namespace Ipcl.Plain

/-- A condition on which the library is specified at all. -/
def require (c : Bool) (what : String) : Result Unit :=
  if c then .ok () else .error (.undefined what)

/-- A vector under a key. -/
structure Sealed (κ : Type) where
  key : κ
  values : List Int
  deriving DecidableEq, Repr

/-! ### The operations -/

namespace Sealed

variable {κ : Type} (n : κ → Nat) (x y : Sealed κ)

/-- The sizes a binary operator takes. -/
def fits (left right : List Int) : Bool := left.length == right.length || right.length == 1

def addCT : Result (Sealed κ) := do
  errorCheck (fits x.values y.values) "CT + CT error: Size mismatch!"
  errorCheck (n x.key = n y.key) "CT + CT error: 2 different public keys detected!"
  pure ⟨x.key, Vec.broadcast (fun m m' => m + m') x.values y.values⟩

def addPT (pt : List Int) : Result (Sealed κ) := do
  errorCheck (0 < pt.length) "encrypt: Cannot encrypt empty PlainText"
  errorCheck (fits x.values pt) "CT + CT error: Size mismatch!"
  pure ⟨x.key, Vec.broadcast (fun m m' => m + m') x.values pt⟩

def mulPT (pt : List Int) : Result (Sealed κ) := do
  errorCheck (fits x.values pt) "CT * PT error: Size mismatch!"
  require (0 < x.values.length) "no base to exponentiate"
  require (x.values.length < 2 ^ 31) "size beyond an int"
  require (pt.all fun k => 0 ≤ k) "negative exponent"
  require (x.values.length == 1 ||
    pt.all fun k => BigNumber.bitLen k ≤ BigNumber.bitLen ((n x.key : Int) * n x.key))
    "exponent longer than the modulus"
  pure ⟨x.key, Vec.broadcast (fun m k => k * m) x.values pt⟩

def rotate (shift : Int32) : Result (Sealed κ) := do
  errorCheck (x.values.length != 1) "rotate: Cannot rotate single CipherText"
  require (x.values.length < 2 ^ 31) "size beyond an int"
  errorCheck (0 ≤ shift.toInt && shift.toInt ≤ x.values.length)
    "rotate: Cannot shift more than the test size"
  pure ⟨x.key, Cyclic.shift x.values shift.toInt⟩

def getCipherText (idx : Nat) : Result (Sealed κ) := do
  errorCheck (idx < x.values.length) "CipherText::getCipherText index is out of range"
  let m ← elemAt x.values idx
  pure ⟨x.key, [m]⟩

/-- An element taken from `y` goes into `x`. -/
def insert (pos idx : Nat) : Result (Sealed κ) := do
  errorCheck (idx < y.values.length) "BaseText: getElement index is out of range"
  let m ← elemAt y.values idx
  errorCheck (pos ≤ x.values.length) "BaseText: insert position is out of range"
  require (n x.key = n y.key) "element under another modulus"
  pure ⟨x.key, x.values.take pos ++ m :: x.values.drop pos⟩

/-- An element taken from `y` replaces one of `x`. -/
def write (pos idx : Nat) : Result (Sealed κ) := do
  errorCheck (idx < y.values.length) "BaseText: getElement index is out of range"
  let m ← elemAt y.values idx
  errorCheck (pos < x.values.length) "BaseText:operator[] index is out of range"
  require (n x.key = n y.key) "element under another modulus"
  pure ⟨x.key, x.values.set pos m⟩

def remove (pos length : UInt64) : Result (Sealed κ) := do
  require (pos.toNat + length.toNat < 2 ^ 64) "sum of positions beyond a size"
  errorCheck (pos.toNat + length.toNat < x.values.length)
    "BaseText: remove position is out of range"
  pure ⟨x.key, x.values.take pos.toNat ++ x.values.drop (pos.toNat + length.toNat)⟩

def clear : Sealed κ := ⟨x.key, []⟩

def decrypt (key : κ) : Result (List Int) := do
  errorCheck (n x.key = n key) "decrypt: The value of N in public key mismatch."
  errorCheck (0 < x.values.length) "decrypt: Cannot decrypt empty CipherText"
  require (x.values.length < 2 ^ 31) "size beyond an int"
  pure (x.values.map fun m => m % n key)

end Sealed

/-! ### The statements -/

/-- The variables, and how many random values can still be drawn. -/
structure State (κ : Type) where
  cipher : Nat → Option (Sealed κ)
  plain : Nat → Option (List Int)
  left : Nat

namespace State

variable {κ : Type}

/-- Nothing is assigned. -/
def fresh (left : Nat) : State κ := ⟨fun _ => none, fun _ => none, left⟩

def setCipher (s : State κ) (d : Nat) (x : Sealed κ) : State κ :=
  { s with cipher := Function.update s.cipher d (some x) }

def setPlain (s : State κ) (p : Nat) (xs : List Int) : State κ :=
  { s with plain := Function.update s.plain p (some xs) }

end State

/-- Reading a variable. -/
def read {α : Type} : Option α → Result α
  | some x => .ok x
  | none => .error (.undefined "variable never assigned")

variable {κ : Type} (n : κ → Nat)

/-- One statement. -/
def step (s : State κ) : Statement κ → Result (State κ)
  | .load p xs => pure (s.setPlain p xs)
  | .encrypt d key p makeSecure => do
      let xs ← read (s.plain p)
      errorCheck (0 < xs.length) "encrypt: Cannot encrypt empty PlainText"
      require (makeSecure → xs.length < 2 ^ 31) "size beyond an int"
      let draws := if makeSecure then xs.length else 0
      if draws ≤ s.left then pure { s.setCipher d ⟨key, xs⟩ with left := s.left - draws }
      else .error .exhausted
  | .decrypt p key a _crt => do
      let x ← read (s.cipher a)
      let xs ← x.decrypt n key
      pure (s.setPlain p xs)
  | .addCT d a b => do
      let x ← read (s.cipher a)
      let y ← read (s.cipher b)
      let z ← x.addCT n y
      pure (s.setCipher d z)
  | .addPT d a p => do
      let x ← read (s.cipher a)
      let ys ← read (s.plain p)
      let z ← x.addPT ys
      pure (s.setCipher d z)
  | .mulPT d a p => do
      let x ← read (s.cipher a)
      let ks ← read (s.plain p)
      let z ← x.mulPT n ks
      pure (s.setCipher d z)
  | .rotate d a shift => do
      let x ← read (s.cipher a)
      let z ← x.rotate shift
      pure (s.setCipher d z)
  | .getCipherText d a idx => do
      let x ← read (s.cipher a)
      let z ← x.getCipherText idx
      pure (s.setCipher d z)
  | .assign d a => do
      let x ← read (s.cipher a)
      pure (s.setCipher d x)
  | .insert d pos a idx => do
      let y ← read (s.cipher a)
      let x ← read (s.cipher d)
      let z ← x.insert n y pos idx
      pure (s.setCipher d z)
  | .write d pos a idx => do
      let y ← read (s.cipher a)
      let x ← read (s.cipher d)
      let z ← x.write n y pos idx
      pure (s.setCipher d z)
  | .remove d pos length => do
      let x ← read (s.cipher d)
      let z ← x.remove pos length
      pure (s.setCipher d z)
  | .clear d => do
      let x ← read (s.cipher d)
      pure (s.setCipher d x.clear)

/-- A program, from its first statement on. -/
def run (prog : List (Statement κ)) (s : State κ) : Result (State κ) := prog.foldlM (step n) s

end Ipcl.Plain
