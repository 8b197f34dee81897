/-
Taking and giving back an outstanding buffer.

`acquire_bnModExp_buffer` looks for a free buffer from a hint on.  When it finds none
it goes on with the number the caller's variable happens to hold, so that number is an
argument here.  Of `release_bnModExp_buffer` this is the last section, after the wait
for the requests of the batch.

`busy_count` is an `unsigned int` and wraps around.
-/
import Ipcl.HeQat.Types

namespace Ipcl.HeQat

variable {ρ : Type}

/-- The scan of `acquire_bnModExp_buffer`: `n` buffers from `next` on. -/
def scanFree (freeBuffer : Nat → Int) : (n next : Nat) → Option Nat
  | 0, _ => none
  | n + 1, next =>
      if freeBuffer next ≠ 0 then some next
      else scanFree freeBuffer n ((next + 1) % bufferCount)

/-- `acquire_bnModExp_buffer`, with what `*_buffer_id` holds at the call. -/
def acquireBuffer (o : OutstandingBuffer ρ) (bufferId : Nat) :
    Section (Nat × OutstandingBuffer ρ) := do
  waitWhile (o.busyCount ≥ bufferCount)
  assertThat (o.busyCount < bufferCount) "outstanding.busy_count < HE_QAT_BUFFER_COUNT"
  if o.nextFreeBuffer ≥ bufferCount then .error (.undefined "array index out of range") else
    let found := scanFree o.freeBuffer bufferCount o.nextFreeBuffer
    let freeBuffer := match found with
      | some id => Function.update o.freeBuffer id 0
      | none => o.freeBuffer
    let id := found.getD bufferId
    let readyBuffer ← store bufferCount o.readyBuffer id 1
    pure (id, { o with
      freeBuffer := freeBuffer
      nextFreeBuffer := (id + 1) % bufferCount
      nextReadyBuffer := id
      readyBuffer := readyBuffer
      busyCount := (o.busyCount + 1) % 2 ^ 32 })

/-- The last section of `release_bnModExp_buffer`. -/
def releaseBuffer (o : OutstandingBuffer ρ) (bufferId : Nat) :
    Section (OutstandingBuffer ρ) := do
  let readyBuffer ← store bufferCount o.readyBuffer bufferId 0
  let freeBuffer ← store bufferCount o.freeBuffer bufferId 1
  pure { o with
    nextFreeBuffer := bufferId
    readyBuffer := readyBuffer
    freeBuffer := freeBuffer
    busyCount := (o.busyCount + 2 ^ 32 - 1) % 2 ^ 32 }

end Ipcl.HeQat
