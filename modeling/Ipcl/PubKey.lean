/-
Encryption.

`PublicKey::encrypt` raises `1 + n` to the plaintext without an exponentiation and
then multiplies by an obfuscator, an `n`-th power modulo `n ^ 2`.  A key in normal
mode draws the base of that power for every element; a key in DJN mode draws one
base when the mode is enabled and an exponent for every element.

Random values come from a supply of draws, one entry a call of `getRandomBN`.  A
draw is an arbitrary natural number of which the generator keeps the low bits it
was asked for, so every value the call can return is some draw and no draw is
anything else; a draw may also be the exception the call throws.
-/
import Ipcl.BigNumber.Bits
import Ipcl.ModExp
import Ipcl.Types
import Ipcl.Lib.Vec

namespace Ipcl

open BigNumber

/-! ### Random values -/

/-- What the random generator will deliver. -/
abbrev Draws := List (Result Nat)

/-- A computation that draws random values. -/
abbrev Rand (α : Type) := StateT Draws (Except Error) α

@[simp] theorem Rand.liftM_ok {α : Type} (a : α) :
    (liftM (Except.ok a : Result α) : Rand α) = pure a := rfl

/-- `getRandomBN` -/
def getRandomBN (bits : Int) : Rand Int := fun draws =>
  if bitsizeWord bits.toNat < 1 then
    .error (.runtime "getRandomBN: get IppsBigNumState context error.")
  else match draws with
    | [] => .error .exhausted
    | .error e :: _ => .error e
    | .ok v :: rest => .ok (((v % 2 ^ bits.toNat : Nat) : Int), rest)

theorem getRandomBN_cons {bits : Int} (hbits : 1 ≤ bits) (v : Nat) (rest : Draws) :
    getRandomBN bits (.ok v :: rest) = .ok (((v % 2 ^ bits.toNat : Nat) : Int), rest) := by
  have hword : ¬ bitsizeWord bits.toNat < 1 := by
    unfold bitsizeWord
    omega
  rw [getRandomBN, if_neg hword]

namespace PublicKey

variable (ipp : Ipp) (me : ModExp)

/-! ### The DJN mode -/

/-- The rejection loop of `enableDJN`: every round uses a draw, so the fuel is the
number of draws left. -/
def enableDJNLoop (n : Int) : Nat → Rand Int
  | 0 => throw .exhausted
  | fuel + 1 => do
      let rand ← getRandomBN (bitSize ipp n + 128)
      let rmod := mod ipp rand n
      let gcd := BigNumber.gcd ipp rand n
      if compare ipp gcd 1 ≠ 0 then enableDJNLoop n fuel else pure rmod

/-- The generator `enableDJN` derives from an accepted draw.  The literal `-1`
selects the `Ipp32u` overload of the product. -/
def djnGenerator (n rmod : Int) : Int :=
  let rmodSq := mul ipp rmod rmod
  let rmodNeg := mul32 ipp rmodSq 0xFFFFFFFF
  mod ipp rmodNeg n

/-- `enableDJN` -/
def enableDJN (pk : PublicKey) : Rand PublicKey := do
  let rmod ← enableDJNLoop ipp pk.n (← get).length
  let h := djnGenerator ipp pk.n rmod
  let hs ← me.one h pk.n pk.nsquare
  pure { pk with hs := hs, randbits := pk.bits >>> (1 : Nat), djnEnabled := true }

/-- `PublicKey(const BigNumber&, int, bool)` -/
def new (n : Int) (bits : Int) (djn : Bool) : Rand PublicKey := do
  let pk : PublicKey :=
    { isInitialized := false
      n := n
      g := add32 ipp n 1
      nsquare := mul ipp n n
      bits := bits
      dwords := (bits * 2 + 63) >>> (6 : Nat)
      djnEnabled := false
      testv := false
      hs := 0
      randbits := 0
      r := [] }
  let pk ← if djn then enableDJN ipp me pk else pure pk
  pure { pk with isInitialized := true }

/-! ### Rebuilding a key -/

/-- `setDJN` -/
def setDJN (pk : PublicKey) (hs randbit : Int) : PublicKey :=
  if pk.djnEnabled then pk else { pk with hs := hs, randbits := randbit, djnEnabled := true }

/-- `create(const BigNumber&, int, bool)` -/
def create (pk : PublicKey) (n bits : Int) (djn : Bool) : Rand PublicKey := do
  let pk := { pk with
    n := n
    g := add32 ipp n 1
    nsquare := mul ipp n n
    bits := bits
    dwords := (bits * 2 + 63) >>> (6 : Nat)
    djnEnabled := djn }
  let pk ← if djn then enableDJN ipp me pk else pure { pk with hs := 0, randbits := 0 }
  pure { pk with testv := false, isInitialized := true }

/-- `create(const BigNumber&, int, const BigNumber&, int)` -/
def createDJN (pk : PublicKey) (n bits hs randbits : Int) : Rand PublicKey := do
  let pk ← create ipp me pk n bits false
  pure { pk with djnEnabled := true, hs := hs, randbits := randbits }

/-- The key when `create` starts to draw. -/
def refilled (pk : PublicKey) (n bits : Int) (djn : Bool) : PublicKey :=
  { pk with
    n := n
    g := add32 ipp n 1
    nsquare := mul ipp n n
    bits := bits
    dwords := (bits * 2 + 63) >>> (6 : Nat)
    djnEnabled := djn }

/-- `create(const BigNumber&, int, bool)` as the object sees it: how the call ends, and what is
left in the key also when an exception ends it.  `enableDJN` assigns nothing before its last
call has returned. -/
def createInto (pk : PublicKey) (n bits : Int) (djn : Bool) (draws : Draws) :
    Result Draws × PublicKey :=
  let pk := refilled ipp pk n bits djn
  if djn then
    match enableDJN ipp me pk draws with
    | .ok (pk, rest) => (.ok rest, { pk with testv := false, isInitialized := true })
    | .error e => (.error e, pk)
  else
    let pk := { pk with hs := 0, randbits := 0 }
    (.ok draws, { pk with testv := false, isInitialized := true })

/-- A call that returns leaves what `create` returns. -/
theorem create_eq_createInto (pk : PublicKey) (n bits : Int) (djn : Bool) (draws : Draws) :
    create ipp me pk n bits djn draws = (createInto ipp me pk n bits djn draws).1.map fun rest =>
      ((createInto ipp me pk n bits djn draws).2, rest) := by
  cases djn with
  | false => rfl
  | true =>
      show (enableDJN ipp me (refilled ipp pk n bits true) draws >>= fun r => _) = _
      unfold createInto
      cases hrun : enableDJN ipp me (refilled ipp pk n bits true) draws with
      | error e => simp only [if_true, hrun]; rfl
      | ok r => simp only [if_true, hrun]; rfl

/-! ### Random values from outside -/

/-- `setRandom`.  The values are appended to those the key has. -/
def setRandom (pk : PublicKey) (r : List Int) : PublicKey :=
  { pk with r := pk.r ++ r, testv := true }

/-! ### Obfuscation -/

/-- `getDJNObfuscator` -/
def getDJNObfuscator (pk : PublicKey) (sz : Nat) : Rand (List Int) := do
  let base := List.replicate sz pk.hs
  let sq := List.replicate sz pk.nsquare
  let r ← if pk.testv then pure pk.r
    else (List.range sz).mapM fun _ => getRandomBN pk.randbits
  me.vec base r sq

/-- The base `getNormalObfuscator` makes of a random value. -/
def normalBase (n rand : Int) : Int := add32 ipp (mod ipp rand (sub32 ipp n 1)) 1

/-- `getNormalObfuscator` -/
def getNormalObfuscator (pk : PublicKey) (sz : Nat) : Rand (List Int) := do
  let sq := List.replicate sz pk.nsquare
  let pown := List.replicate sz pk.n
  let r ← if pk.testv then pure pk.r
    else do
      intLoop sz
      (List.range sz).mapM fun _ => do
        let rand ← getRandomBN pk.bits
        pure (normalBase ipp pk.n rand)
  me.vec r pown sq

/-- `applyObfuscator` -/
def applyObfuscator (pk : PublicKey) (ciphertext : List Int) : Rand (List Int) := do
  let sz := ciphertext.length
  let obfuscator ← if pk.djnEnabled then getDJNObfuscator me pk sz
    else getNormalObfuscator ipp me pk sz
  let sq := pk.nsquare
  liftM ((List.range sz).mapM fun i => do
    let c ← elemAt ciphertext i
    let o ← elemAt obfuscator i
    pure (modMul ipp sq c o) : Result (List Int))

/-! ### Encryption -/

/-- `raw_encrypt` -/
def rawEncrypt (pk : PublicKey) (pt : List Int) (makeSecure : Bool) : Rand (List Int) := do
  let nsq := pk.nsquare
  let ct := pt.map fun m => mod ipp (add32 ipp (mul ipp pk.n m) 1) nsq
  if makeSecure then applyObfuscator ipp me pk ct else pure ct

/-- `encrypt` -/
def encrypt (pk : PublicKey) (pt : PlainText) (makeSecure : Bool) : Rand CipherText := do
  errorCheck pk.isInitialized "encrypt: Public key is NOT initialized."
  let ptSize := pt.getSize
  errorCheck (0 < ptSize) "encrypt: Cannot encrypt empty PlainText"
  let ctBnV ← rawEncrypt ipp me pk pt.getTexts makeSecure
  pure (CipherText.ofVec pk ctBnV)

end PublicKey

end Ipcl
