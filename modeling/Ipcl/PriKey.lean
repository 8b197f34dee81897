/-
Private keys and decryption.

A private key keeps nine numbers derived from its primes.  The source writes their
derivation out three times: in the initialiser lists of the two constructors, one
taking the public key and one its modulus, and in the body of `load`.  The first
two are here, each in its own words; the third is with the archives.

The smaller prime is always stored as `p`.  Decryption modulo `n ^ 2` uses `lambda`
and `x`; decryption modulo `p ^ 2` and `q ^ 2` uses everything else.
-/
import Ipcl.PubKey

namespace Ipcl

open BigNumber

/-- `PrivateKey` -/
structure PrivateKey where
  isInitialized : Bool
  enableCrt : Bool
  n : Int
  nsquare : Int
  g : Int
  p : Int
  q : Int
  pminusone : Int
  qminusone : Int
  psquare : Int
  qsquare : Int
  pinverse : Int
  hp : Int
  hq : Int
  lambda : Int
  x : Int
  deriving DecidableEq, Repr

variable (ipp : Ipp) (me : ModExp)

/-- `lcm` -/
def lcm (p q : Int) : Int := div ipp (mul ipp p q) (BigNumber.gcd ipp p q)

namespace PrivateKey

/-- `computeLfun` -/
def computeLfun (a b : Int) : Int := div ipp (sub32 ipp a 1) b

/-- What `computeHfun` inverts. -/
def hfunArg (g a b : Int) : Result Int := do
  let xm := sub32 ipp a 1
  let base := mod ipp g b
  let pm ← me.one base xm b
  pure (computeLfun ipp pm a)

/-- `computeHfun` -/
def computeHfun (g a b : Int) : Result Int := do
  let lcrt ← hfunArg ipp me g a b
  pure (inverseMul ipp a lcrt)

/-- What the initialiser of `x` inverts. -/
def xArg (n g lambda nsquare : Int) : Result Int := do
  let e ← me.one g lambda nsquare
  pure (div ipp (sub32 ipp e 1) n)

/-- `PrivateKey(const PublicKey&, const BigNumber&, const BigNumber&)` -/
def ofPublicKey (pk : PublicKey) (p q : Int) : Result PrivateKey := do
  let n := pk.n
  let nsquare := pk.nsquare
  let g := pk.g
  let p' := if lt ipp q p then q else p
  let q' := if lt ipp q p then p else q
  let pminusone := sub32 ipp p' 1
  let qminusone := sub32 ipp q' 1
  let psquare := mul ipp p' p'
  let qsquare := mul ipp q' q'
  let pinverse := inverseMul ipp q' p'
  let hp ← computeHfun ipp me g p' psquare
  let hq ← computeHfun ipp me g q' qsquare
  let lambda := lcm ipp pminusone qminusone
  let lx ← xArg ipp me n g lambda nsquare
  let x := inverseMul ipp n lx
  errorCheck (eq ipp (mul ipp p' q') n) "PrivateKey ctor: Public key does not match p * q."
  errorCheck (ne ipp p' q') "PrivateKey ctor: p and q are same"
  pure
    { isInitialized := true, enableCrt := true, n := n, nsquare := nsquare, g := g,
      p := p', q := q', pminusone := pminusone, qminusone := qminusone, psquare := psquare,
      qsquare := qsquare, pinverse := pinverse, hp := hp, hq := hq, lambda := lambda, x := x }

/-- `PrivateKey(const BigNumber&, const BigNumber&, const BigNumber&)` -/
def ofModulus (n p q : Int) : Result PrivateKey := do
  let nsquare := mul ipp n n
  let g := add32 ipp n 1
  let p' := if lt ipp q p then q else p
  let q' := if lt ipp q p then p else q
  let pminusone := sub32 ipp p' 1
  let qminusone := sub32 ipp q' 1
  let psquare := mul ipp p' p'
  let qsquare := mul ipp q' q'
  let pinverse := inverseMul ipp q' p'
  let hp ← computeHfun ipp me g p' psquare
  let hq ← computeHfun ipp me g q' qsquare
  let lambda := lcm ipp pminusone qminusone
  let lx ← xArg ipp me n g lambda nsquare
  let x := inverseMul ipp n lx
  errorCheck (eq ipp (mul ipp p' q') n) "PrivateKey ctor: Public key does not match p * q."
  errorCheck (ne ipp p' q') "PrivateKey ctor: p and q are same"
  pure
    { isInitialized := true, enableCrt := true, n := n, nsquare := nsquare, g := g,
      p := p', q := q', pminusone := pminusone, qminusone := qminusone, psquare := psquare,
      qsquare := qsquare, pinverse := pinverse, hp := hp, hq := hq, lambda := lambda, x := x }

/-- `enableCRT` -/
def enableCRT (sk : PrivateKey) (crt : Bool) : PrivateKey := { sk with enableCrt := crt }

/-! ### Decryption -/

/-- `decryptRAW`, into a vector of `vSize` numbers -/
def decryptRAW (sk : PrivateKey) (vSize : Nat) (ciphertext : List Int) : Result (List Int) := do
  let powLambda := List.replicate vSize sk.lambda
  let modulo := List.replicate vSize sk.nsquare
  let res ← me.vec ciphertext powLambda modulo
  intLoop vSize
  (List.range vSize).mapM fun i => do
    let r ← elemAt res i
    let m := mul ipp (div ipp (sub32 ipp r 1) sk.n) sk.x
    pure (mod ipp m sk.n)

/-- `computeCRT` -/
def computeCRT (sk : PrivateKey) (mp mq : Int) : Int :=
  let u := mod ipp (mul ipp (sub ipp mq mp) sk.pinverse) sk.q
  add ipp mp (mul ipp u sk.p)

/-- `decryptCRT`, into a vector of `vSize` numbers -/
def decryptCRT (sk : PrivateKey) (vSize : Nat) (ciphertext : List Int) : Result (List Int) := do
  let pm1 := List.replicate vSize sk.pminusone
  let qm1 := List.replicate vSize sk.qminusone
  let psq := List.replicate vSize sk.psquare
  let qsq := List.replicate vSize sk.qsquare
  intLoop vSize
  let basep ← (List.range vSize).mapM fun i => do
    let c ← elemAt ciphertext i
    pure (mod ipp c sk.psquare)
  let baseq ← (List.range vSize).mapM fun i => do
    let c ← elemAt ciphertext i
    pure (mod ipp c sk.qsquare)
  let resp ← me.vec basep pm1 psq
  let resq ← me.vec baseq qm1 qsq
  intLoop vSize
  (List.range vSize).mapM fun i => do
    let rp ← elemAt resp i
    let rq ← elemAt resq i
    let dp := mod ipp (mul ipp (computeLfun ipp rp sk.p) sk.hp) sk.p
    let dq := mod ipp (mul ipp (computeLfun ipp rq sk.q) sk.hq) sk.q
    pure (computeCRT ipp sk dp dq)

/-- `decrypt` -/
def decrypt (sk : PrivateKey) (ct : CipherText) : Result PlainText := do
  errorCheck sk.isInitialized "decrypt: Private key is NOT initialized."
  let pk ← deref ct.pk
  errorCheck (eq ipp pk.n sk.n) "decrypt: The value of N in public key mismatch."
  let ctSize := ct.getSize
  errorCheck (0 < ctSize) "decrypt: Cannot decrypt empty CipherText"
  let ctBn := ct.getTexts
  let ptBn ← if sk.enableCrt then decryptCRT ipp me sk ctSize ctBn
    else decryptRAW ipp me sk ctSize ctBn
  pure (BaseText.ofVec ptBn)

end PrivateKey

end Ipcl
