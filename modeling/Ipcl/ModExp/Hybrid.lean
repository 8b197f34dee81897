/-
How a vector is split between the device and the processor.

Each thread has a ratio, the part of a vector that `modExp` gives to the device, and a
mode.  A caller sets either; under the mode `OPTIMAL` encryption, decryption and
multiplication also set the ratio, by the number of elements.  The ratio is a `float`,
and the length of the vector becomes one before the two are multiplied.

This is the build with both the device and OpenMP.  The others have no ratio.
-/
import Ipcl.Lib.Rounding
import Ipcl.ModExp.Batch

namespace Ipcl.Hybrid

open Rounding

/-! ### Numbers of type `float` -/

/-- A number of type `float`.  None here comes near the largest, so there is no largest. -/
structure Single where
  val : ℚ
  mem : val ∈ Binary 24 (-149)

namespace Single

/-- The conversion to `float`, or what an operation on them returns. -/
def round (x : ℚ) : Single := ⟨roundBinary 24 (-149) x, roundBinary_mem (by decide) x⟩

/-- A constant of type `float` with a literal of type `double`. -/
def literal (x : ℚ) : Single := round (roundBinary 53 (-1074) x)

end Single

/-- What a caller may pass for a `float`. -/
inductive FloatArg where
  | nan
  | infinity (negative : Bool)
  | number (x : Single)

namespace FloatArg

/-- The test of `setHybridRatio`.  No comparison with what is not a number holds. -/
def isRatio : FloatArg → Bool
  | nan => false
  | infinity _ => false
  | number x => x.val ≤ 1 && 0 ≤ x.val

end FloatArg

/-! ### The settings of a thread -/

/-- `HybridMode` -/
inductive HybridMode where
  | optimal
  | qat
  | prefQat90
  | prefQat80
  | prefQat70
  | prefQat60
  | half
  | prefIpp60
  | prefIpp70
  | prefIpp80
  | prefIpp90
  | ipp
  | undefined
  deriving DecidableEq, Repr

/-- The values of the enumerators. -/
def HybridMode.value : HybridMode → Int
  | optimal => 95
  | qat => 100
  | prefQat90 => 90
  | prefQat80 => 80
  | prefQat70 => 70
  | prefQat60 => 60
  | half => 50
  | prefIpp60 => 40
  | prefIpp70 => 30
  | prefIpp80 => 20
  | prefIpp90 => 10
  | ipp => 0
  | undefined => -1

/-- `g_hybrid_params` of one thread -/
structure HybridParams where
  ratio : Single
  mode : HybridMode

namespace HybridParams

/-- As every thread starts. -/
def initial : HybridParams := ⟨.literal 0, .optimal⟩

/-- `scale_down` -/
def scaleDown (value : Int) : Single :=
  .round ((Single.round value).val / (Single.literal 100).val)

/-- `setHybridRatio` -/
def setHybridRatio (params : HybridParams) (ratio : FloatArg) (resetMode : Bool) :
    Result HybridParams :=
  match ratio with
  | .number x =>
      if (FloatArg.number x).isRatio then
        .ok ⟨x, if resetMode then .undefined else params.mode⟩
      else .error (.runtime "setHybridRatio: Hybrid modexp qat ratio is NOT correct")
  | _ => .error (.runtime "setHybridRatio: Hybrid modexp qat ratio is NOT correct")

/-- `setHybridMode` -/
def setHybridMode (_params : HybridParams) (mode : HybridMode) : HybridParams :=
  ⟨scaleDown mode.value, mode⟩

/-- `setHybridOff` -/
def setHybridOff (_params : HybridParams) : HybridParams := ⟨.literal 0, .undefined⟩

/-- `isHybridOptimal` -/
def isHybridOptimal (params : HybridParams) : Bool := params.mode == .optimal

/-- `IPCL_WORKLOAD_SIZE_THRESHOLD` -/
def workloadSizeThreshold : Nat := 128

/-- `IPCL_HYBRID_MODEXP_RATIO_FULL` -/
def ratioFull : Single := .literal 1

/-- `IPCL_HYBRID_MODEXP_RATIO_ENCRYPT` -/
def ratioEncrypt : Single := .literal (25 / 100)

/-- `IPCL_HYBRID_MODEXP_RATIO_DECRYPT` -/
def ratioDecrypt : Single := .literal (12 / 100)

/-- `IPCL_HYBRID_MODEXP_RATIO_MULTIPLY` -/
def ratioMultiply : Single := .literal (18 / 100)

/-- What `encrypt`, `decrypt` and `raw_mul` do before they exponentiate a vector. -/
def useSpecialRatio (params : HybridParams) (special : Single) (size : Nat) :
    Result HybridParams :=
  if params.isHybridOptimal then
    let qatRatio := if size ≤ workloadSizeThreshold then ratioFull else special
    params.setHybridRatio (.number qatRatio) false
  else .ok params

/-- What `encrypt` does to the settings. -/
def encrypt (params : HybridParams) (size : Nat) : Result HybridParams := do
  errorCheck (0 < size) "encrypt: Cannot encrypt empty PlainText"
  params.useSpecialRatio ratioEncrypt size

/-- What `decrypt` does to the settings. -/
def decrypt (params : HybridParams) (size : Nat) : Result HybridParams := do
  errorCheck (0 < size) "decrypt: Cannot decrypt empty CipherText"
  params.useSpecialRatio ratioDecrypt size

/-- What `raw_mul` on vectors does to the settings. -/
def rawMul (params : HybridParams) (size : Nat) : Result HybridParams :=
  params.useSpecialRatio ratioMultiply size

end HybridParams

/-- What a thread calls. -/
inductive Call where
  | setHybridRatio (ratio : FloatArg) (resetMode : Bool)
  | setHybridMode (mode : HybridMode)
  | setHybridOff
  | encrypt (size : Nat)
  | decrypt (size : Nat)
  | rawMul (size : Nat)

namespace Call

def perform (params : HybridParams) : Call → Result HybridParams
  | setHybridRatio ratio resetMode => params.setHybridRatio ratio resetMode
  | setHybridMode mode => .ok (params.setHybridMode mode)
  | setHybridOff => .ok params.setHybridOff
  | encrypt size => params.encrypt size
  | decrypt size => params.decrypt size
  | rawMul size => params.rawMul size

/-- A call that throws has changed nothing. -/
def after (params : HybridParams) (call : Call) : HybridParams :=
  match call.perform params with
  | .ok params' => params'
  | .error _ => params

/-- A call that sets the ratio or the mode, and is not refused. -/
def isSetting : Call → Bool
  | setHybridRatio ratio _ => ratio.isRatio
  | setHybridMode _ => true
  | setHybridOff => true
  | _ => false

end Call

/-- The settings of a thread after its calls. -/
def settle (calls : List Call) : HybridParams := calls.foldl Call.after .initial

/-- The setting that was made last. -/
def lastSetting (calls : List Call) : Option Call := (calls.filter Call.isSetting).getLast?

/-! ### The split -/

/-- How many of `vSize` elements go to the device.  The product is cut to a `std::size_t`. -/
def hybridQatSize (ratio : Single) (vSize : Nat) : Nat :=
  ⌊(Single.round (ratio.val * (Single.round vSize).val)).val⌋.toNat

end Hybrid

/-- `modExp` on vectors, under the settings of the calling thread -/
def Engines.hybridModExp (en : Engines) (params : Hybrid.HybridParams) (multiBuffer : Bool)
    (base exp mod : List Int) : Result (List Int) := do
  errorCheck (params.ratio.val ≥ 0 && params.ratio.val ≤ 1)
    "modExp: hybrid modexp qat ratio is incorrect"
  en.modExp multiBuffer (Hybrid.hybridQatSize params.ratio base.length) base exp mod

end Ipcl
