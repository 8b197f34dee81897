/-
Archives.

The archive layer is a third-party library that restores ints, enumerations and
vectors; an archive is therefore the list of the items written, and reading takes
the next item if it is of the kind asked for.  A number is written as its words and
its sign, a private key as the bit size of `p` and the two primes, a public key as
the arguments of the `create` that rebuilds it, a text as its stored size and its
elements.

`load` works on an existing object and assigns its fields one after another, so a
call that fails half way leaves the ones assigned so far.  The monad keeps the
object across a failure.
-/
import Ipcl.PriKey

namespace Ipcl

open BigNumber

inductive Item where
  | int (v : Int)
  | bool (b : Bool)
  | size (n : Nat)
  | words (ws : List Nat)
  | sign (neg : Bool)
  deriving DecidableEq, Repr

abbrev Archive := List Item

/-- Reading from an archive into an object of type `σ`: the outcome, with what is left
of the archive, and the object as it is afterwards. -/
def Load (σ α : Type) := Archive → σ → Result (α × Archive) × σ

namespace Load

variable {σ α β : Type}

instance : Monad (Load σ) where
  pure a := fun ar s => (.ok (a, ar), s)
  bind prog f := fun ar s =>
    match prog ar s with
    | (.ok (a, ar'), s') => f a ar' s'
    | (.error e, s') => (.error e, s')

theorem bind_ok {prog : Load σ α} {f : α → Load σ β} {ar ar' : Archive} {s s' : σ} {a : α}
    (h : prog ar s = (.ok (a, ar'), s')) : (prog >>= f) ar s = f a ar' s' := by
  show (match prog ar s with
    | (.ok (a, ar'), s') => f a ar' s'
    | (.error e, s') => (.error e, s')) = _
  rw [h]

theorem bind_error {prog : Load σ α} {f : α → Load σ β} {ar : Archive} {s s' : σ} {e : Error}
    (h : prog ar s = (.error e, s')) : (prog >>= f) ar s = (.error e, s') := by
  show (match prog ar s with
    | (.ok (a, ar'), s') => f a ar' s'
    | (.error e, s') => (.error e, s')) = _
  rw [h]

/-- What the archive layer throws when the next item is not the one asked for. -/
def failure : Error := .runtime "Failed to read from input stream!"

def int : Load σ Int := fun ar s =>
  match ar with
  | .int v :: rest => (.ok (v, rest), s)
  | _ => (.error failure, s)

def bool : Load σ Bool := fun ar s =>
  match ar with
  | .bool b :: rest => (.ok (b, rest), s)
  | _ => (.error failure, s)

def size : Load σ Nat := fun ar s =>
  match ar with
  | .size n :: rest => (.ok (n, rest), s)
  | _ => (.error failure, s)

def words : Load σ (List Nat) := fun ar s =>
  match ar with
  | .words ws :: rest => (.ok (ws, rest), s)
  | _ => (.error failure, s)

def sign : Load σ Bool := fun ar s =>
  match ar with
  | .sign neg :: rest => (.ok (neg, rest), s)
  | _ => (.error failure, s)

/-- A computation that reads nothing and leaves the object alone. -/
def ofResult (r : Result α) : Load σ α := fun ar s =>
  match r with
  | .ok a => (.ok (a, ar), s)
  | .error e => (.error e, s)

@[simp] theorem ofResult_ok_bind (a : α) (f : α → Load σ β) :
    (ofResult (.ok a) >>= f) = f a := rfl

@[simp] theorem ofResult_error_bind (e : Error) (f : α → Load σ β) :
    (ofResult (.error e) >>= f) = ofResult (.error e) := rfl

/-- Assigning fields of the object.  Nothing between two assignments that are made at
once here can fail. -/
def assign (f : σ → σ) : Load σ Unit := fun ar s => (.ok ((), ar), f s)

/-- An operation on the object that can fail. -/
def modify (f : σ → Result σ) : Load σ Unit := fun ar s =>
  match f s with
  | .ok s' => (.ok ((), ar), s')
  | .error e => (.error e, s)

/-- The outcome of a load and the object it leaves. -/
def exec (prog : Load σ Unit) (ar : Archive) (s : σ) : Result Unit × σ :=
  ((prog ar s).1.map fun _ => (), (prog ar s).2)

end Load

/-! ### Numbers -/

namespace BigNumber

/-- `save` -/
def save (x : Int) : Archive := [.words (num2vec x), .sign (x < 0)]

/-- `load`.  `create` takes the number of words as an `int`. -/
def load {σ : Type} : Load σ Int := do
  let vec ← Load.words
  let sign ← Load.sign
  Load.ofResult (create vec (toInt vec.length) sign)

end BigNumber

/-- `std::vector<Ipp32u> v(n, 0)`, with a count that may be negative -/
def zeroWords (n : Int) : Result (List Nat) :=
  if n < 0 then .error (.runtime "cannot create std::vector larger than max_size()")
  else .ok (List.replicate n.toNat 0)

/-! ### Private keys -/

namespace PrivateKey

variable (ipp : Ipp) (me : ModExp)

/-- `save` -/
def save (sk : PrivateKey) : Archive :=
  .int (bitSize ipp sk.p) :: (BigNumber.save sk.p ++ BigNumber.save sk.q)

/-- The part of `load` that makes the placeholders and reads the primes. -/
def loadPrimes : Load PrivateKey (Int × Int) := do
  let bits ← Load.int
  let bnLen := bits.tdiv 32
  let pV ← Load.ofResult (zeroWords bnLen)
  let qV ← Load.ofResult (zeroWords bnLen)
  let _ ← Load.ofResult (create pV bnLen false)
  let _ ← Load.ofResult (create qV bnLen false)
  let p ← BigNumber.load
  let q ← BigNumber.load
  pure (p, q)

/-- The part of `load` that derives the fields. -/
def loadFields (p q : Int) : Load PrivateKey Unit := do
  let n := mul ipp p q
  let nsquare := mul ipp n n
  let g := add32 ipp n 1
  let p' := if lt ipp q p then q else p
  let q' := if lt ipp q p then p else q
  let pminusone := sub32 ipp p' 1
  let qminusone := sub32 ipp q' 1
  let psquare := mul ipp p' p'
  let qsquare := mul ipp q' q'
  let pinverse := inverseMul ipp q' p'
  Load.assign fun sk =>
    { sk with n := n, nsquare := nsquare, g := g, enableCrt := true, p := p', q := q',
              pminusone := pminusone, qminusone := qminusone, psquare := psquare,
              qsquare := qsquare, pinverse := pinverse }
  let hp ← Load.ofResult (computeHfun ipp me g p' psquare)
  Load.assign fun sk => { sk with hp := hp }
  let hq ← Load.ofResult (computeHfun ipp me g q' qsquare)
  let lambda := lcm ipp pminusone qminusone
  Load.assign fun sk => { sk with hq := hq, lambda := lambda }
  let lx ← Load.ofResult (xArg ipp me n g lambda nsquare)
  let x := inverseMul ipp n lx
  Load.assign fun sk => { sk with x := x, isInitialized := true }

/-- `load` -/
def load : Load PrivateKey Unit := do
  let (p, q) ← loadPrimes
  loadFields ipp me p q

end PrivateKey

/-! ### Public keys -/

namespace PublicKey

variable (ipp : Ipp) (me : ModExp)

/-- `save` -/
def save (pk : PublicKey) : Archive :=
  .int pk.bits :: .bool pk.djnEnabled :: .int pk.randbits ::
    (BigNumber.save pk.n ++ BigNumber.save pk.hs)

/-- `load`.  Neither overload of `create` draws here. -/
def load : Load PublicKey Unit := do
  let bits ← Load.int
  let djn ← Load.bool
  let randbits ← Load.int
  let bnLen := bits.tdiv 32
  let nV ← Load.ofResult (zeroWords bnLen)
  let hsV ← Load.ofResult (zeroWords (bnLen * 2))
  let _ ← Load.ofResult (BigNumber.create nV bnLen false)
  let _ ← Load.ofResult (BigNumber.create hsV (bnLen * 2) false)
  let n ← BigNumber.load
  let hs ← BigNumber.load
  Load.modify fun pk =>
    if djn then (createDJN ipp me pk n bits hs randbits).run' []
    else (create ipp me pk n bits false).run' []

end PublicKey

/-! ### Texts -/

namespace BaseText

/-- `serialize`, writing -/
def save (t : BaseText) : Archive :=
  .size t.size :: .size t.texts.length :: t.texts.flatMap BigNumber.save

/-- `std::vector::resize` -/
def resize (xs : List Int) (n : Nat) : List Int :=
  xs.take n ++ List.replicate (n - xs.length) 0

/-- The elements from index `i` on, each read in its place. -/
def loadElements : (count i : Nat) → Load BaseText Unit
  | 0, _ => pure ()
  | count + 1, i => do
      let x ← BigNumber.load
      Load.assign fun t => { t with texts := t.texts.set i x }
      loadElements count (i + 1)

/-- `serialize`, reading.  The stored size is taken as it comes. -/
def load : Load BaseText Unit := do
  let size ← Load.size
  Load.assign fun t => { t with size := size }
  let n ← Load.size
  Load.assign fun t => { t with texts := resize t.texts n }
  loadElements n 0

end BaseText

namespace CipherText

variable (ipp : Ipp) (me : ModExp)

/-- The part of the object that `BaseText` holds. -/
def onBase {α : Type} (prog : Load BaseText α) : Load CipherText α := fun ar ct =>
  ((prog ar ct.toBaseText).1, { ct with toBaseText := (prog ar ct.toBaseText).2 })

/-- The object behind the pointer, once it has been followed. -/
def onKey {α : Type} (pk : PublicKey) (prog : Load PublicKey α) : Load CipherText α := fun ar ct =>
  ((prog ar pk).1, { ct with pk := some (prog ar pk).2 })

/-- `serialize`, writing -/
def save (ct : CipherText) : Result Archive := do
  let pk ← deref ct.pk
  pure (ct.toBaseText.save ++ pk.save)

/-- `serialize`, reading.  The key is named before anything is read. -/
def load : Load CipherText Unit := fun ar ct =>
  (do
    let pk ← Load.ofResult (deref ct.pk)
    onBase BaseText.load
    onKey pk (PublicKey.load ipp me) : Load CipherText Unit) ar ct

end CipherText

end Ipcl
