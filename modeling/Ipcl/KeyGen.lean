/-
Key generation.

Two rejection loops draw primes until a pair fits.  The one for normal mode tests
only the length of the product and the distance of the primes; the one for DJN mode
also wants both primes to be 3 modulo 4 and `gcd(p - 1, q - 1) = 2`.

The primes come from a supply, one entry a call of `getPrimeBN`.  Every round of
every loop takes at least one, so the number of entries left bounds the rounds.
-/
import Ipcl.Lib.Supply
import Ipcl.PriKey

namespace Ipcl

open BigNumber

/-- A computation that draws primes. -/
abbrev PrimeGen (α : Type) := StateT (List Int) (Except Error) α

/-- `getPrimeBN`.  The size only configures the generator. -/
def getPrimeBN (_maxBits : Int) : PrimeGen Int := Supply.draw .exhausted

/-- `TestBit`, for an index that is not negative -/
def testBit (x : Int) (index : Nat) : Result Bool :=
  if index > bitLen x then .ok false
  else if index / 32 < 2 * roomOf (bitsizeWord (bitLen x)) then
    .ok ((x.natAbs / 2 ^ (32 * (index / 32)) % 2 ^ 32) >>> (index % 32) &&& 1 = 1)
  else .error (.undefined "read past the words of a number")

/-- `getPrimeDistance` -/
def getPrimeDistance (keySize : Int) : Int :=
  let count := ((keySize.tdiv 2 - 100) % 2 ^ 64).toNat
  let ct32 := count / 32
  let res := count &&& 0x1F
  let tmp := (List.replicate (ct32 + 1) 0).set ct32 (1 <<< res)
  ofWords tmp

section
variable (ipp : Ipp)

/-- `isClosePrimeBN` -/
def isClosePrimeBN (p q refDist : Int) : Bool :=
  let realDist := if ge ipp p q then sub ipp p q else sub ipp q p
  if gt ipp realDist refDist then false else true

/-! ### Normal mode -/

/-- The loop of `getNormalBN` that draws `q` until it differs from `p`. -/
def getNormalQ (nLength p : Int) : Nat → Int → PrimeGen Int
  | 0, _ => throw .exhausted
  | fuel + 1, q =>
      if eq ipp q p then do
        let q ← getPrimeBN (nLength.tdiv 2)
        getNormalQ nLength p fuel q
      else pure q

/-- The loop of `getNormalBN`, with the length it tests. -/
def getNormalLoop (nLength refDist : Int) :
    Nat → (len p q n : Int) → PrimeGen (Int × Int × Int)
  | 0, _, _, _, _ => throw .exhausted
  | fuel + 1, len, p, q, n =>
      if len ≠ nLength ∨ isClosePrimeBN ipp p q refDist = true then do
        let p ← getPrimeBN (nLength.tdiv 2)
        let q ← getNormalQ ipp nLength p ((← get).length + 1) p
        let n := mul ipp p q
        getNormalLoop nLength refDist fuel (bitSize ipp n) p q n
      else pure (p, q, n)

/-- `getNormalBN` -/
def getNormalBN (nLength p q n refDist : Int) : PrimeGen (Int × Int × Int) := do
  getNormalLoop ipp nLength refDist ((← get).length + 1) 0 p q n

/-! ### DJN mode -/

/-- The first inner loop of `getDJNBN`. -/
def getDJNP (nLength : Int) : Nat → PrimeGen Int
  | 0 => throw .exhausted
  | fuel + 1 => do
      let p ← getPrimeBN (nLength.tdiv 2)
      let bit ← (liftM (testBit p 1) : PrimeGen Bool)
      if !bit then getDJNP nLength fuel else pure p

/-- The second inner loop of `getDJNBN`.  The bit it tests is a bit of `p`. -/
def getDJNQ (nLength p : Int) : Nat → PrimeGen Int
  | 0 => throw .exhausted
  | fuel + 1 => do
      let q ← getPrimeBN (nLength.tdiv 2)
      if eq ipp q p then getDJNQ nLength p fuel
      else do
        let bit ← (liftM (testBit p 1) : PrimeGen Bool)
        if !bit then getDJNQ nLength p fuel else pure q

/-- The outer loop of `getDJNBN`. -/
def getDJNLoop (nLength refDist : Int) : Nat → PrimeGen (Int × Int × Int)
  | 0 => throw .exhausted
  | fuel + 1 => do
      let p ← getDJNP nLength ((← get).length + 1)
      let q ← getDJNQ ipp nLength p ((← get).length + 1)
      let gcd := BigNumber.gcd ipp (sub32 ipp p 1) (sub32 ipp q 1)
      let n := mul ipp p q
      if compare ipp gcd 2 ≠ 0 ∨ bitSize ipp n ≠ nLength ∨
          isClosePrimeBN ipp p q refDist = true then
        getDJNLoop nLength refDist fuel
      else pure (p, q, n)

/-- `getDJNBN` -/
def getDJNBN (nLength refDist : Int) : PrimeGen (Int × Int × Int) := do
  getDJNLoop ipp nLength refDist ((← get).length + 1)

/-! ### The key pair -/

/-- The lengths `generateKeypair` lets through. -/
def checkLength (nLength : Int) : Result Unit := do
  errorCheck (nLength ≤ 2048)
    ("generateKeyPair: modulus size in bits should belong to either 1Kb, 2Kb, " ++
      "3Kb or 4Kb range only, key size exceed the range!!!")
  errorCheck (nLength ≥ 200 ∧ nLength.tmod 4 = 0)
    "generateKeyPair: key size should >=200, and divisible by 4"

/-- The primes and the modulus `generateKeypair` draws. -/
def drawPrimes (nLength : Int) (djn : Bool) : PrimeGen (Int × Int × Int) :=
  let refDist := getPrimeDistance nLength
  if djn then getDJNBN ipp nLength refDist else getNormalBN ipp nLength 0 0 0 refDist

/-- `generateKeypair` -/
def generateKeypair (me : ModExp) (nLength : Int) (djn : Bool) (primes : List Int)
    (draws : Draws) : Result (PublicKey × PrivateKey) := do
  checkLength nLength
  let ((p, q, n), _) ← drawPrimes ipp nLength djn primes
  let (pk, _) ← PublicKey.new ipp me n nLength djn draws
  let sk ← PrivateKey.ofPublicKey ipp me pk p q
  pure (pk, sk)

end

end Ipcl
