/-
How `modExp` cuts its vectors into batches.

The single-buffer loop takes one element at a time, the multi-buffer path chunks of
eight, the QAT paths slices of a batch size, and the hybrid path gives a first part
to the device and the rest to the other engines.  Each has its own way to treat what
is left over.  Here they are as the code computes them, with the counters in the
width they are declared in; which indices a chunk or a slice works on is a
definition of its own.

The requests of a slice run on the device at the same time.  They share nothing, and
the slice waits for all of them, so a slice is three loops: write the operands and
run the requests, wait, read the results back.
-/
import Ipcl.BigNumber.Bits
import Ipcl.HeQat.Types
import Ipcl.ModExp.Engines

namespace Ipcl

open BigNumber

/-- What the batches are handed to. -/
structure Engines where
  ipp : Ipp
  mont : Mont
  mbx : Mbx
  qat : Qat
  /-- `IPCL_USE_OMP`: the loops over single numbers and over chunks are shared by threads. -/
  openmp : Bool

/-- Writing an element of a vector. -/
def setAt {α : Type} (xs : List α) (i : Nat) (x : α) : Result (List α) :=
  if i < xs.length then .ok (xs.set i x) else .error (.undefined "vector index out of range")

namespace Engines

variable (en : Engines)

/-! ### One engine of IPP Cryptography at a time -/

/-- Work that is done in a thread of its own.  An exception that leaves the thread, or reaches it
before it is joined, ends the program. -/
def terminating {α : Type} : Result α → Result α
  | .error (.runtime _) => .error .terminate
  | r => r

/-- A loop that is an OpenMP one in builds with OpenMP. -/
def shared {α : Type} (openmp : Bool) (loop : Result α) : Result α :=
  if openmp then terminating loop else loop

section
variable {α : Type}

@[simp] theorem terminating_ok (a : α) : terminating (.ok a : Result α) = .ok a := rfl

@[simp] theorem shared_ok (openmp : Bool) (a : α) : shared openmp (.ok a) = .ok a := by
  cases openmp <;> rfl

theorem of_terminating {r : Result α} {a : α} (h : terminating r = .ok a) : r = .ok a := by
  cases r with
  | ok b => exact h
  | error e => cases e <;> cases h

theorem of_shared {openmp : Bool} {r : Result α} {a : α} (h : shared openmp r = .ok a) :
    r = .ok a := by
  cases openmp with
  | true => exact of_terminating h
  | false => exact h

theorem not_throws_terminating (r : Result α) : ¬ Throws (terminating r) := by
  intro hthrows
  obtain ⟨msg, hmsg⟩ := hthrows
  cases r with
  | ok a => cases hmsg
  | error e => cases e <;> cases hmsg

/-- What does not throw by itself does not throw in threads. -/
theorem not_throws_shared {openmp : Bool} {r : Result α} (h : openmp = true ∨ ¬ Throws r) :
    ¬ Throws (shared openmp r) := by
  cases openmp with
  | true => exact not_throws_terminating r
  | false => exact h.resolve_left (by decide)

end

/-- `ippSBModExpWrapper` -/
def ippSBModExpWrapper (base exp mod : List Int) : Result (List Int) := do
  intLoop base.length
  shared en.openmp ((List.range base.length).mapM fun i => do
    let b ← elemAt base i
    let e ← elemAt exp i
    let m ← elemAt mod i
    ippSBModExp en.mont b e m)

/-- The chunks of `ippMBModExpWrapper`, each by its offset and its size. -/
def chunks (vSize : Nat) : List (Nat × Nat) :=
  let remainder := vSize % cryptoMbSize
  let numChunk := (vSize + cryptoMbSize - 1) / cryptoMbSize
  (List.range numChunk).map fun i =>
    (i * cryptoMbSize, if i = numChunk - 1 ∧ 0 < remainder then remainder else cryptoMbSize)

/-- One round of `ippMBModExpWrapper`. -/
def runChunk (base exp mod res : List Int) (chunk : Nat × Nat) : Result (List Int) := do
  let b ← slice base chunk.1 chunk.2
  let e ← slice exp chunk.1 chunk.2
  let m ← slice mod chunk.1 chunk.2
  let tmp ← ippMBModExp en.mbx b e m
  copyTo res chunk.1 tmp

/-- `ippMBModExpWrapper` -/
def ippMBModExpWrapper (base exp mod : List Int) : Result (List Int) :=
  shared en.openmp
    ((chunks base.length).foldlM (en.runChunk base exp mod) (List.replicate base.length 0))

/-- `ippModExp` on vectors.  `multiBuffer` is what the build or the processor decides. -/
def ippModExp (multiBuffer : Bool) (base exp mod : List Int) : Result (List Int) :=
  if base.length = 1 then do
    let b ← elemAt base 0
    let e ← elemAt exp 0
    let m ← elemAt mod 0
    let r ← ippSBModExp en.mont b e m
    pure [r]
  else if multiBuffer then en.ippMBModExpWrapper base exp mod
  else en.ippSBModExpWrapper base exp mod

/-! ### The QAT device -/

/-- An operand of a request, written into a cleared buffer. -/
def operand (length : Nat) (x : Int) (msg : String) : Result (List Nat) := do
  let (ret, data) ← toBin (List.replicate length 0) length x
  if ret then pure data else .error (.exit msg)

/-- The request for one index, and the octet string it leaves. -/
def request (length : Nat) (base exponent modulus : List Int) (i : Nat) : Result (List Nat) := do
  let b ← elemAt base i
  let b ← operand length b "bn_base_data_: failed at bigNumberToBin()\n"
  let e ← elemAt exponent i
  let e ← operand length e "bn_exponent_data_: failed at bigNumberToBin()\n"
  let m ← elemAt modulus i
  let m ← operand length m "bn_modulus_data_: failed at bigNumberToBin()\n"
  pure (en.qat.exp b e m (8 * length))

/-- Reading the result for one index back. -/
def collect (length : Nat) (msg : String) (remainder : List Int) (i : Nat) (out : List Nat) :
    Result (List Int) := do
  let bn ← fromBin out length
  match bn with
  | some x => setAt remainder i x
  | none => .error (.exit msg)

/-- The indices a slice works on, what it prints when a result is not read, and how it ends
when it has more requests than the ring that holds them has slots. -/
structure Slice where
  indices : List Nat
  msg : String
  overlong : Error

/-- One slice: the requests for its indices, then the results.  The wait for the requests goes
through the slots of a ring; a request past the last slot takes the place of another. -/
def qatSlice (length : Nat) (base exponent modulus : List Int) (remainder : List Int)
    (s : Slice) : Result (List Int) := do
  let outs ← s.indices.mapM (en.request length base exponent modulus)
  if HeQat.bufferSize < s.indices.length then .error s.overlong else
  (s.indices.zip outs).foldlM (fun rem out => collect length s.msg rem out.1 out.2) remainder

/-- What the two QAT functions do around their slices. -/
def qatBatches (slices : Nat → Nat → List Slice) (preallocated : Nat → Nat → Nat)
    (base exponent modulus : List Int) (batchSize : Nat) : Result (List Int) := do
  let front ← elemAt modulus 0
  let length := bitsizeWord (bitSize en.ipp front).toNat * 4
  let worksize := base.length % 2 ^ 32
  if batchSize = 0 then .error (.undefined "division by zero") else
    intLoop (preallocated worksize batchSize)
    (slices worksize batchSize).foldlM (en.qatSlice length base exponent modulus)
      (List.replicate worksize 0)

/-- `nslices` of `heQatBnModExp_MT`, rounded up. -/
def nslicesMT (worksize batchSize : Nat) : Nat := (worksize + batchSize - 1) % 2 ^ 32 / batchSize

/-- `batch_size` of `heQatBnModExp_MT` -/
def batchSizeMT (worksize batchSize : Nat) : Nat :=
  if 0 < nslicesMT worksize batchSize then batchSize else worksize

/-- The indices `j * batch_size + i` for `i` below `n`, as `unsigned int`. -/
def row (batchSize j n : Nat) : List Nat :=
  (List.range n).map fun i => (j * batchSize + i) % 2 ^ 32

/-- The slices of `heQatBnModExp_MT`.  `release_bnModExp_buffer` stays at a slot that holds
NULL. -/
def slicesMT (worksize batchSize : Nat) : List Slice :=
  let nslices := nslicesMT worksize batchSize
  let residue := worksize % batchSize
  let batchSize := batchSizeMT worksize batchSize
  (List.range nslices).map fun j =>
    { indices := row batchSize j (if j = nslices - 1 ∧ 0 < residue then residue else batchSize)
      msg := "residue bn_remainder_data_: failed at BigNumber::fromBin()\n"
      overlong := .hang }

/-- `heQatBnModExp_MT` -/
def heQatBnModExp_MT (base exponent modulus : List Int) (batchSize : Nat) : Result (List Int) :=
  en.qatBatches slicesMT batchSizeMT base exponent modulus batchSize

/-- `batch_size` of `heQatBnModExp`: a batch is not larger than the work. -/
def batchSizeOf (worksize batchSize : Nat) : Nat :=
  if worksize / batchSize = 0 then worksize else batchSize

/-- The slices of `heQatBnModExp`, the rest of the division last.  `getBnModExpRequest` counts a
slot that holds NULL as well, so it returns without having waited for every request. -/
def slicesOf (worksize batchSize : Nat) : List Slice :=
  let unwaited := .undefined "reading a result that is not waited for"
  let nslices := if worksize / batchSize = 0 then 1 else worksize / batchSize
  let residue := if worksize / batchSize = 0 then 0 else worksize % batchSize
  let batchSize := batchSizeOf worksize batchSize
  let full := (List.range nslices).map fun j =>
    { indices := row batchSize j batchSize
      msg := "bn_remainder_data_: failed at bignumbertobin()\n"
      overlong := unwaited }
  let rest :=
    { indices := row batchSize nslices residue
      msg := "residue bn_remainder_data_: failed at BigNumber::fromBin()\n"
      overlong := unwaited }
  if residue = 0 then full else full ++ [rest]

/-- `heQatBnModExp` -/
def heQatBnModExp (base exponent modulus : List Int) (batchSize : Nat) : Result (List Int) :=
  en.qatBatches slicesOf batchSizeOf base exponent modulus batchSize

/-- `IPCL_QAT_MODEXP_BATCH_SIZE` -/
def qatModexpBatchSize : Nat := 1024

/-- `qatModExp` -/
def qatModExp (base exp mod : List Int) : Result (List Int) :=
  en.heQatBnModExp_MT base exp mod qatModexpBatchSize

/-! ### Both -/

/-- `modExp` on vectors where the first `qatSize` elements go to the device, in a thread of their
own where there are others.  A build without the device is the one of size zero, but for an
empty vector. -/
def modExp (multiBuffer : Bool) (qatSize : Nat) (base exp mod : List Int) :
    Result (List Int) :=
  if qatSize = base.length then en.qatModExp base exp mod
  else if qatSize = 0 then en.ippModExp multiBuffer base exp mod
  else do
    let qatBase ← slice base 0 qatSize
    let qatExp ← slice exp 0 qatSize
    let qatMod ← slice mod 0 qatSize
    let ippBase ← slice base qatSize (base.length - qatSize)
    let ippExp ← slice exp qatSize (exp.length - qatSize)
    let ippMod ← slice mod qatSize (mod.length - qatSize)
    let qatRes ← terminating (en.qatModExp qatBase qatExp qatMod)
    let ippRes ← terminating (en.ippModExp multiBuffer ippBase ippExp ippMod)
    let res ← copyTo (List.replicate base.length 0) 0 qatRes
    copyTo res qatSize ippRes

/-- The two forms of `modExp` on these engines, where of `n` elements `qatSize n` go to the
device.  A single number always goes through Montgomery arithmetic. -/
def toModExp (multiBuffer : Bool) (qatSize : Nat → Nat) : ModExp where
  vec base exp mod := en.modExp multiBuffer (qatSize base.length) base exp mod
  one base exp mod := ippSBModExp en.mont base exp mod

end Engines

end Ipcl
