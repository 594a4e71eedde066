import Laghu.FlatMemory
import Laghu.Runs
import Laghu.Views

/-!
Lists of byte regions to be written. Regions are appended at the end and consumed from
the front, whole ones first; consuming the front shifts the rest down in place. A list is
handed to the kernel as an array of vectors, and the kernel may accept any number of the
bytes in them.
-/

namespace Laghu.IoSlices

open Contract CheckedArithmetic FlatMemory Views

structure IoSlice where
  bytes : ByteView := .empty

namespace IoSlice

def size (s : IoSlice) : Size := s.bytes.size

def consume (s : IoSlice) (bytes : Size) : Result IoSlice :=
  if bytes > s.size then
    .error (coreError .invalidRange "I/O slice consume exceeds readable region")
  else do
    let remaining ← s.bytes.slice bytes (s.size - bytes)
    return ⟨remaining⟩

end IoSlice

/-- `storage` is a span of `capacity` slices, of which the first `count` are in use. -/
structure IoSliceList where
  storage : Memory IoSlice
  capacity : ℕ
  count : ℕ := 0
  bytes : Size := 0#64

namespace IoSliceList

/-- `slices()`. -/
def slices (l : IoSliceList) : List IoSlice := slice l.storage 0 l.count

def append (l : IoSliceList) (bytes : ByteView) : Result Unit × IoSliceList :=
  if bytes.size = 0#64 then (.ok (), l)
  else if l.count = l.capacity then
    (.error (coreError .exhaustion "I/O slice list capacity is exhausted"), l)
  else
    match checkedAdd l.bytes bytes.size with
    | .error e => (.error e, l)
    | .ok total =>
      (.ok (), { l with
        storage := store l.storage l.count ⟨bytes⟩
        count := l.count + 1
        bytes := total })

/-- The loop over whole slices: how many to remove and what is left to consume. -/
def skipWhole (storage : Memory IoSlice) (count : ℕ) : ℕ → ℕ → Size → Option (ℕ × Size)
  | 0, _, _ => none
  | fuel + 1, removed, remaining =>
    if removed < count ∧ remaining ≥ (storage removed).size then
      skipWhole storage count fuel (removed + 1) (remaining - (storage removed).size)
    else some (removed, remaining)

/-- The slice that is consumed in part; `none` is `std::terminate`, and an index behind
the storage. -/
def trim (l : IoSliceList) (removed : ℕ) (remaining : Size) : Option (Memory IoSlice) :=
  if remaining = 0#64 then some l.storage
  else if removed < l.capacity then
    match (l.storage removed).consume remaining with
    | .error _ => none
    | .ok consumed => some (store l.storage removed consumed)
  else none

def consume (l : IoSliceList) (bytes : Size) : Option (Result Unit × IoSliceList) :=
  if bytes > l.bytes then
    some (.error (coreError .invalidRange "I/O slice list consume exceeds readable regions"), l)
  else do
    let (removed, remaining) ← skipWhole l.storage l.count (l.count + 1) 0 bytes
    let storage ← l.trim removed remaining
    return (.ok (), { l with
      storage := copyForward storage 0 removed (if removed ≠ 0 then l.count - removed else 0)
      count := if removed ≠ 0 then l.count - removed else l.count
      bytes := l.bytes - bytes })

end IoSliceList

structure Iovec where
  iovBase : ℕ := 0
  iovLen : Size := 0#64

/-- The loop of `translate_iovecs` from `index` on. -/
def fillIovecs (output : Memory Iovec) (index : ℕ) : List IoSlice → ℕ × Memory Iovec
  | [] => (index, output)
  | s :: rest => fillIovecs (store output index ⟨s.bytes.data, s.size⟩) (index + 1) rest

/-- `output` is a span of `outputSize` vectors. -/
def translateIovecs (l : IoSliceList) (output : Memory Iovec) (outputSize : ℕ) :
    Result ℕ × Memory Iovec :=
  if l.count > outputSize then
    (.error (coreError .exhaustion "POSIX I/O vector storage is exhausted"), output)
  else
    let (index, output) := fillIovecs output 0 l.slices
    (.ok index, output)

def consumeWritten (l : IoSliceList) (bytes : Size) : Option (Result Unit × IoSliceList) :=
  l.consume bytes

/-- The bytes behind an array of vectors. -/
def gather {α : Type} (m : Memory α) (vectors : List Iovec) : List α :=
  vectors.flatMap fun v => slice m v.iovBase v.iovLen.toNat

/-- A program that sends a list through one array of vectors; `sent` is what the kernel
has accepted so far. -/
structure Sender (α : Type) where
  list : IoSliceList
  output : Memory Iovec
  outputSize : ℕ
  sent : List α := []

/-- `transmit` is one round of the sending loop, in which the kernel accepts the first
`accepted` bytes of the vectors, or all of them if there are fewer. -/
inductive Call
  | append (bytes : ByteView)
  | consume (bytes : Size)
  | transmit (accepted : ℕ)

/-- A success comes with the number of bytes that left the list. -/
abbrev Output := Result ℕ

namespace Sender

variable {α : Type}

def step (m : Memory α) (s : Sender α) : Call → Option (Output × Sender α)
  | .append bytes =>
    let (result, list) := s.list.append bytes
    some (result.map fun _ => 0, { s with list := list })
  | .consume bytes => do
    let (result, list) ← s.list.consume bytes
    return (result.map fun _ => bytes.toNat, { s with list := list })
  | .transmit accepted =>
    match translateIovecs s.list s.output s.outputSize with
    | (.error e, output) => some (.error e, { s with output := output })
    | (.ok count, output) => do
      let written := (gather m (slice output 0 count)).take accepted
      let (result, list) ← consumeWritten s.list (BitVec.ofNat 64 written.length)
      return (result.map fun _ => written.length,
        { s with list := list, output := output, sent := s.sent ++ written })

def system (m : Memory α) : Runs.System (Sender α) Call Output where
  legal _ _ := True
  step := step m

/-- A list that has just been constructed over any storage. -/
def Started (s : Sender α) : Prop := s.list.count = 0 ∧ s.list.bytes = 0#64 ∧ s.sent = []

end Sender

end Laghu.IoSlices
