import Laghu.BudgetRuns
import Laghu.CapacityGrowth
import Laghu.FlatMemory
import Laghu.Views

/-!
A growable byte buffer on one block of memory. Blocks come from a source that
the buffer calls back; what the source answers is an argument of each call that
may reach it, and the ledger records every block it handed out and every block
passed back to it. The program around the buffer shares the budget tree and the
memory.
-/

namespace Laghu.BoundedBuffers

open Contract CheckedArithmetic ObjectTable MemoryBudgets CapacityGrowth FlatMemory Views

abbrev Byte := BitVec 8

/-- Which of the two callbacks are non-null. -/
structure BufferBlockSource where
  acquire : Bool
  release : Bool
  deriving DecidableEq

/-- The budget is a reference and so never null. -/
structure BoundedBuffer where
  worker : WorkerId
  budget : ℕ
  source : BufferBlockSource
  block : MutableByteView := .empty
  storage : MutableByteView := .empty
  reservation : MemoryReservation := {}
  initialCapacity : Size
  maximumCapacity : Size
  capacity : Size := 0#64
  readOffset : Size := 0#64
  writeOffset : Size := 0#64
  deriving DecidableEq

/-- Blocks returned by `acquire` and blocks passed to `release`. -/
structure Ledger where
  acquired : Multiset MutableByteView := 0
  released : Multiset MutableByteView := 0

def Ledger.acquire (l : Ledger) (block : MutableByteView) : Ledger :=
  { l with acquired := block ::ₘ l.acquired }

def Ledger.release (l : Ledger) (block : MutableByteView) : Ledger :=
  { l with released := block ::ₘ l.released }

/-- The buffer and everything it shares with the rest of the program. -/
structure State where
  buffer : BoundedBuffer
  budgets : Budgets
  reservations : Table MemoryReservation
  memory : Memory Byte
  ledger : Ledger

/-- The indexed copy of `count` bytes; an index outside either span is undefined. -/
def copyBytes (m : Memory Byte) (input output : Span) (count : Size) : Option (Memory Byte) :=
  if count ≤ input.size ∧ count ≤ output.size then
    some (copyForward m output.data input.data count.toNat)
  else none

def blockTooSmall : Error := coreError .exhaustion "bounded buffer block source is too small"

def capacityExhausted : Error :=
  coreError .exhaustion "bounded buffer maximum capacity is exhausted"

namespace BoundedBuffer

def construct (worker : WorkerId) (budget : ℕ) (source : BufferBlockSource)
    (initialCapacity maximumCapacity : Size) : BoundedBuffer :=
  { worker := worker, budget := budget, source := source, initialCapacity := initialCapacity,
    maximumCapacity := maximumCapacity }

def size (b : BoundedBuffer) : Size := b.writeOffset - b.readOffset

def requireWorker (b : BoundedBuffer) (worker : WorkerId) : Result Unit :=
  if worker.value ≠ b.worker.value then
    .error (coreError .invalidState "bounded buffer accessed by a different worker")
  else .ok ()

def validateSource (b : BoundedBuffer) : Result Unit :=
  if !b.source.acquire ∨ !b.source.release ∨ b.initialCapacity = 0#64 ∨
      b.initialCapacity > b.maximumCapacity then
    .error (coreError .invalidInput "bounded buffer has an invalid block source or capacity")
  else .ok ()

def nextCapacity (b : BoundedBuffer) (required : Size) : Option (Result Size) := do
  let target ← doubleUntil b.maximumCapacity required rounds
    (if b.capacity = 0#64 then b.initialCapacity else b.capacity)
  return .ok target

def readable (b : BoundedBuffer) (worker : WorkerId) : Option (Result ByteView) :=
  match b.requireWorker worker with
  | .error e => some (.error e)
  | .ok () => do
    let bytes ← b.storage.subspan b.readOffset b.size
    return ByteView.from bytes

def writable (b : BoundedBuffer) (worker : WorkerId) : Option (Result MutableByteView) :=
  match b.requireWorker worker with
  | .error e => some (.error e)
  | .ok () => do
    let bytes ← b.storage.subspan b.writeOffset (b.capacity - b.writeOffset)
    return MutableByteView.from bytes

def commit (b : BoundedBuffer) (worker : WorkerId) (bytes : Size) : Result Unit × BoundedBuffer :=
  match b.requireWorker worker with
  | .error e => (.error e, b)
  | .ok () =>
    if bytes > b.capacity - b.writeOffset then
      (.error (coreError .invalidRange "bounded buffer commit exceeds writable region"), b)
    else
      match checkedAdd b.writeOffset bytes with
      | .error e => (.error e, b)
      | .ok next => (.ok (), { b with writeOffset := next })

def consume (b : BoundedBuffer) (worker : WorkerId) (bytes : Size) : Result Unit × BoundedBuffer :=
  match b.requireWorker worker with
  | .error e => (.error e, b)
  | .ok () =>
    if bytes > b.size then
      (.error (coreError .invalidRange "bounded buffer consume exceeds readable region"), b)
    else
      match checkedAdd b.readOffset bytes with
      | .error e => (.error e, b)
      | .ok next =>
        if next = b.writeOffset then (.ok (), { b with readOffset := 0#64, writeOffset := 0#64 })
        else (.ok (), { b with readOffset := next })

end BoundedBuffer

namespace State

/-- The callback passed to `reserve_for_allocation`: it captures the variable
that receives the block. -/
def firstAcquisition (target : Size) (reply : Result MutableByteView) :
    MutableByteView × Ledger → Result Unit × MutableByteView × Ledger
  | (acquired, ledger) =>
    match reply with
    | .error e => (.error e, acquired, ledger)
    | .ok block =>
      if block.size < target then
        (.error blockTooSmall, acquired, (ledger.acquire block).release block)
      else (.ok (), block, ledger.acquire block)

/-- `grow` without an active reservation. -/
def growFirst (s : State) (worker : WorkerId) (target : Size) (reply : Result MutableByteView) :
    Option (Result Unit × State) := do
  let (result, bs, acquired, ledger) ← reserveForAllocation s.budgets s.buffer.budget worker target
    (firstAcquisition target reply) (.empty, s.ledger)
  match result with
  | .error e => return (.error e, { s with budgets := bs, ledger := ledger })
  | .ok reservation =>
    match acquired.slice 0#64 target with
    | .error e =>
      let (_, bs') ← reservation.releaseUnchecked bs
      return (.error e, { s with budgets := bs', ledger := ledger.release acquired })
    | .ok storage =>
      let (_, bs') ← s.buffer.reservation.releaseUnchecked bs
      return (.ok (), { s with
        budgets := bs'
        ledger := ledger
        buffer := { s.buffer with
          block := acquired
          storage := storage
          reservation := reservation
          capacity := target } })

/-- Undoing the growth of the reservation; failing to do so stops the program. -/
def rollback (s : State) (worker : WorkerId) (additional : Size) : Option State := do
  match ← s.buffer.reservation.shrink s.budgets worker additional with
  | (.error _, _, _) => none
  | (.ok (), reservation, bs) =>
    return { s with budgets := bs, buffer := { s.buffer with reservation := reservation } }

/-- The readable bytes move to the front of `output`. -/
def moveReadable (s : State) (output : Span) : Option (Memory Byte) :=
  if s.buffer.size ≠ 0#64 then do
    let input ← s.buffer.storage.subspan s.buffer.readOffset s.buffer.size
    copyBytes s.memory input output s.buffer.size
  else some s.memory

/-- `grow` with an active reservation. -/
def growAgain (s : State) (worker : WorkerId) (target : Size) (reply : Result MutableByteView) :
    Option (Result Unit × State) := do
  let additional := target - s.buffer.capacity
  match ← s.buffer.reservation.grow s.budgets worker additional with
  | (.error e, reservation, bs) =>
    return (.error e,
      { s with budgets := bs, buffer := { s.buffer with reservation := reservation } })
  | (.ok (), reservation, bs) =>
    let charged : State :=
      { s with budgets := bs, buffer := { s.buffer with reservation := reservation } }
    match reply with
    | .error e =>
      let undone ← charged.rollback worker additional
      return (.error e, undone)
    | .ok block =>
      let supplied : State := { charged with ledger := charged.ledger.acquire block }
      let returned : State := { supplied with ledger := supplied.ledger.release block }
      if block.size < target then
        let undone ← returned.rollback worker additional
        return (.error blockTooSmall, undone)
      else
        match block.slice 0#64 target with
        | .error e =>
          let undone ← returned.rollback worker additional
          return (.error e, undone)
        | .ok replacement =>
          let memory ← supplied.moveReadable replacement.toSpan
          return (.ok (), { supplied with
            memory := memory
            ledger := supplied.ledger.release s.buffer.block
            buffer := { supplied.buffer with
              block := block
              storage := replacement
              capacity := target
              readOffset := 0#64
              writeOffset := s.buffer.size } })

def grow (s : State) (worker : WorkerId) (required : Size) (reply : Result MutableByteView) :
    Option (Result Unit × State) :=
  match s.buffer.validateSource with
  | .error e => some (.error e, s)
  | .ok () => do
    match ← s.buffer.nextCapacity required with
    | .error e => return (.error e, s)
    | .ok target =>
      if target > s.buffer.maximumCapacity then return (.error capacityExhausted, s)
      else if !s.buffer.reservation.isActive then s.growFirst worker target reply
      else s.growAgain worker target reply

def compactUnchecked (s : State) : Option State :=
  if s.buffer.readOffset = 0#64 then some s
  else do
    let memory ← s.moveReadable s.buffer.storage.toSpan
    return { s with
      memory := memory
      buffer := { s.buffer with readOffset := 0#64, writeOffset := s.buffer.size } }

/-- The part of `reserve` that makes the writable region large enough. -/
def makeRoom (s : State) (worker : WorkerId) (minimumWritable : Size)
    (reply : Result MutableByteView) : Option (Result Unit × State) :=
  if minimumWritable > s.buffer.capacity - s.buffer.writeOffset then
    match checkedAdd s.buffer.size minimumWritable with
    | .error e => some (.error e, s)
    | .ok required =>
      if required ≤ s.buffer.capacity then do
        let compacted ← s.compactUnchecked
        return (.ok (), compacted)
      else s.grow worker required reply
  else some (.ok (), s)

def reserve (s : State) (worker : WorkerId) (minimumWritable : Size)
    (reply : Result MutableByteView) : Option (Result MutableByteView × State) :=
  match s.buffer.requireWorker worker with
  | .error e => some (.error e, s)
  | .ok () =>
    if minimumWritable = 0#64 then some (.ok .empty, s)
    else if minimumWritable > s.buffer.maximumCapacity - s.buffer.size then
      some (.error capacityExhausted, s)
    else do
      match ← s.makeRoom worker minimumWritable reply with
      | (.error e, s') => return (.error e, s')
      | (.ok (), s') =>
        let bytes ← s'.buffer.storage.subspan s'.buffer.writeOffset minimumWritable
        match MutableByteView.from bytes with
        | .error _ => none
        | .ok region => return (.ok region, s')

def compact (s : State) (worker : WorkerId) : Option (Result Unit × State) :=
  match s.buffer.requireWorker worker with
  | .error e => some (.error e, s)
  | .ok () => do
    let compacted ← s.compactUnchecked
    return (.ok (), compacted)

def releaseUnchecked (s : State) : Option State := do
  let ledger := if s.buffer.block.data ≠ 0 then s.ledger.release s.buffer.block else s.ledger
  let (_, bs) ← s.buffer.reservation.releaseUnchecked s.budgets
  return { s with
    budgets := bs
    ledger := ledger
    buffer := { s.buffer with
      block := .empty
      storage := .empty
      capacity := 0#64
      readOffset := 0#64
      writeOffset := 0#64
      reservation := {} } }

def release (s : State) (worker : WorkerId) : Option (Result Unit × State) :=
  match s.buffer.requireWorker worker with
  | .error e => some (.error e, s)
  | .ok () => do
    let released ← s.releaseUnchecked
    return (.ok (), released)

/-- `~BoundedBuffer`; the reservation it then destroys is already empty. -/
def destroy (s : State) : Option State := s.releaseUnchecked

end State

/-- Calls of the buffer, and what the rest of the program does in between. -/
inductive Call
  | readable (worker : WorkerId)
  | writable (worker : WorkerId)
  | reserve (worker : WorkerId) (minimumWritable : Size) (reply : Result MutableByteView)
  | commit (worker : WorkerId) (bytes : Size)
  | consume (worker : WorkerId) (bytes : Size)
  | compact (worker : WorkerId)
  | release (worker : WorkerId)
  | budgets (call : MemoryBudgets.Call)
  | poke (address : ℕ) (value : Byte)

inductive Output
  | done (result : Result Unit)
  | view (result : Result View)

namespace State

def heap (s : State) : Heap := ⟨s.budgets, s.reservations⟩

def step (s : State) : Call → Option (Output × State)
  | .readable worker => do
    let result ← s.buffer.readable worker
    return (.view result, s)
  | .writable worker => do
    let result ← s.buffer.writable worker
    return (.view result, s)
  | .reserve worker minimumWritable reply => do
    let (result, s') ← s.reserve worker minimumWritable reply
    return (.view result, s')
  | .commit worker bytes =>
    let (result, b) := s.buffer.commit worker bytes
    some (.done result, { s with buffer := b })
  | .consume worker bytes =>
    let (result, b) := s.buffer.consume worker bytes
    some (.done result, { s with buffer := b })
  | .compact worker => do
    let (result, s') ← s.compact worker
    return (.done result, s')
  | .release worker => do
    let (result, s') ← s.release worker
    return (.done result, s')
  | .budgets call => do
    let (result, h) ← s.heap.step call
    return (.done result, { s with budgets := h.budgets, reservations := h.reservations })
  | .poke address value => some (.done (.ok ()), { s with memory := store s.memory address value })

/-- The buffer itself may be called in any way; the rest of the program obeys
the contract of budgets and keeps the buffer's budget alive. -/
def Legal (s : State) : Call → Prop
  | .budgets call => Heap.Legal {s.buffer.reservation} s.heap call ∧
      call ≠ .destroyBudget s.buffer.budget
  | _ => True

def system : Runs.System State Call Output where
  legal := Legal
  step := step

/-- A new buffer on a live budget of any program. -/
def Initial (s : State) : Prop :=
  s.heap.Reachable ∧ (∃ x, s.budgets.get? s.buffer.budget = some x) ∧ s.ledger = {} ∧
    ∃ worker budget source initialCapacity maximumCapacity,
      s.buffer = .construct worker budget source initialCapacity maximumCapacity

def Reachable (s : State) : Prop := Runs.Reachable system Initial s

end State

end Laghu.BoundedBuffers
