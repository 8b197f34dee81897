/-
The sections of `ctrl.c` that move requests.

Requests enter a ring one by one or as a list, and leave it as a list.  The scheduler
first chooses an outstanding buffer under one mutex, and then reads from it under
another, so its pull is two sections.
-/
import Ipcl.HeQat.Types

namespace Ipcl.HeQat

variable {ρ : Type}

/-- `submit_request` -/
def submitRequest (b : RequestBuffer ρ) (args : ρ) : Section (RequestBuffer ρ) := do
  waitWhile (b.count ≥ bufferSize)
  assertThat (b.count < bufferSize) "_buffer->count < HE_QAT_BUFFER_SIZE"
  let data ← store bufferSize b.data b.nextFreeSlot (some args)
  pure { b with
    data := data
    nextFreeSlot := (b.nextFreeSlot + 1) % bufferSize
    count := b.count + 1 }

/-- The loop of `submit_request_list`: element `i` of the list goes to the free slot. -/
def submitNext (st : RequestBuffer ρ × TaskRequestList ρ) (i : Nat) :
    Section (RequestBuffer ρ × TaskRequestList ρ) := do
  let (b, l) := st
  let r ← load bufferSize l.request i
  let data ← store bufferSize b.data b.nextFreeSlot r
  let request ← store bufferSize l.request i none
  pure ({ b with data := data, nextFreeSlot := (b.nextFreeSlot + 1) % bufferSize },
    { l with request := request })

/-- `submit_request_list` -/
def submitRequestList (b : RequestBuffer ρ) (l : TaskRequestList ρ) :
    Section (RequestBuffer ρ × TaskRequestList ρ) :=
  if l.count = 0 then .ok (b, l) else do
    waitWhile (b.count ≥ bufferSize ∨ bufferSize - b.count < l.count)
    assertThat (b.count < bufferSize) "_buffer->count < HE_QAT_BUFFER_SIZE"
    let (b', l') ← (List.range l.count).foldlM submitNext (b, l)
    pure ({ b' with count := b'.count + l.count }, { l' with count := 0 })

/-- The loop of `read_request_list`: the next slot of the ring goes to place `i`. -/
def readNext (st : TaskRequestList ρ × RequestBuffer ρ) (i : Nat) :
    Section (TaskRequestList ρ × RequestBuffer ρ) := do
  let (l, b) := st
  let r ← load bufferSize b.data b.nextDataSlot
  let request ← store bufferSize l.request i r
  pure ({ l with request := request },
    { b with nextDataSlot := (b.nextDataSlot + 1) % bufferSize })

/-- `read_request_list` -/
def readRequestList (l : TaskRequestList ρ) (b : RequestBuffer ρ) (maxRequests : Nat) :
    Section (TaskRequestList ρ × RequestBuffer ρ) := do
  waitWhile (b.count ≤ 0)
  assertThat (b.count > 0) "_buffer->count > 0"
  assertThat (b.count ≤ bufferSize) "_buffer->count <= HE_QAT_BUFFER_SIZE"
  let count := if b.count < maxRequests then b.count else maxRequests
  let (l', b') ← (List.range count).foldlM readNext (l, b)
  pure ({ l' with count := count }, { b' with count := b'.count - count })

/-! ### `pull_outstanding_requests` -/

/-- The first section: the first buffer that is ready and not empty. -/
def pullSelect (o : OutstandingBuffer ρ) : Section (Option Nat) := do
  waitWhile (o.busyCount ≤ 0)
  pure ((List.range bufferCount).find? fun index =>
    o.readyBuffer index ≠ 0 ∧ (o.buffer index).count ≠ 0)

/-- The loop of the second section. -/
def extractNext (st : TaskRequestList ρ × RequestBuffer ρ) (i : Nat) :
    Section (TaskRequestList ρ × RequestBuffer ρ) := do
  let (l, b) := st
  let r ← load bufferSize b.data b.nextDataSlot
  let request ← store bufferSize l.request i r
  pure ({ l with request := request },
    { b with
      count := b.count - 1
      nextDataSlot := (b.nextDataSlot + 1) % bufferSize })

/-- The second section, on the buffer chosen. -/
def pullExtract (l : TaskRequestList ρ) (b : RequestBuffer ρ) (maxNumRequests : Nat) :
    Section (TaskRequestList ρ × RequestBuffer ρ) := do
  waitWhile (b.count ≤ 0)
  assertThat (b.count > 0) "_outstanding_buffer->buffer[index].count > 0"
  let numRequests := if b.count < maxNumRequests then b.count else maxNumRequests
  assertThat (numRequests ≤ bufferSize) "num_requests <= HE_QAT_BUFFER_SIZE"
  let (l', b') ← (List.range numRequests).foldlM extractNext (l, b)
  pure ({ l' with count := numRequests }, b')

end Ipcl.HeQat
