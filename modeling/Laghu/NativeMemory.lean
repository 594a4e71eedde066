import Laghu.ArenaRuns
import Laghu.MemoryWords

/-!
Memory for native libraries, drawn from an arena. Every block has a header in front of
it, in the same memory as the payloads, and a freed block is linked into a list through
its header. The list is dropped when the arena has been reset since the last call.
-/

namespace Laghu.NativeMemory

open Contract BoundedArenas FlatMemory MemoryWords Views

/-- `free_list_` is the address of a header, or null. -/
structure NativeMemoryPool where
  arena : ℕ
  worker : WorkerId
  generation : BitVec 64
  freeList : ℕ := 0

/-- The arenas, the memory behind them, and one pool. -/
structure Machine where
  arenas : BoundedArenas.World
  memory : Memory Cell
  pool : NativeMemoryPool

/-- `sizeof(ArenaAllocation)`: three words, padded to the largest alignment. -/
def headerSize : ℕ := 32

def capacityAt (allocation : ℕ) : ℕ := allocation

def usedAt (allocation : ℕ) : ℕ := allocation + 8

def nextAt (allocation : ℕ) : ℕ := allocation + 16

/-- No block source hands out more bytes than this, so no list has more blocks. -/
def listBound : ℕ := 2 ^ 64

/-- The loop over the free list: the header before the first one that is large enough,
and that one. Null is `0`; a list with a cycle is never left. -/
def findFit (m : Memory Cell) (size : ℕ) : ℕ → ℕ → ℕ → Option (ℕ × ℕ)
  | 0, _, _ => none
  | fuel + 1, previous, allocation =>
    if allocation = 0 then some (previous, 0)
    else do
      let capacity ← loadWord m (capacityAt allocation)
      if capacity < size then
        let next ← loadWord m (nextAt allocation)
        findFit m size fuel allocation next
      else return (previous, allocation)

namespace Machine

def synchronize (M : Machine) : Option Machine := do
  let arena ← M.arenas.arenas.get? M.pool.arena
  if M.pool.generation ≠ arena.generation then
    return { M with pool := { M.pool with generation := arena.generation, freeList := 0 } }
  else return M

/-- Unlink `allocation`, which follows `previous`, and hand it out again. -/
def reuse (M : Machine) (size previous allocation : ℕ) : Option (ℕ × Machine) := do
  let next ← loadWord M.memory (nextAt allocation)
  let linked := if previous = 0 then M.memory else storeWord M.memory (nextAt previous) next
  let freeList := if previous = 0 then next else M.pool.freeList
  return (allocation + headerSize, { M with
    memory := storeWord (storeWord linked (usedAt allocation) size) (nextAt allocation) 0
    pool := { M.pool with freeList := freeList } })

/-- The initializer of a new header. -/
def initializeHeader (m : Memory Cell) (header size : ℕ) : Memory Cell :=
  storeWord (storeWord (storeWord m (capacityAt header) size) (usedAt header) size)
    (nextAt header) 0

/-- Take a new block from the arena. -/
def carve (M : Machine) (size : Size) (reply : Result MutableByteView) : Option (ℕ × Machine) :=
  if size > sizeMax - BitVec.ofNat 64 headerSize then some (0, M)
  else do
    match ← M.arenas.step (.tryAllocate M.pool.arena M.pool.worker
        (BitVec.ofNat 64 headerSize + size) 16#64 reply) with
    | (.view (.ok view), arenas) =>
      match ← arenas.viewBytes view with
      | .error _ => return (0, { M with arenas := arenas })
      | .ok bytes =>
        return (bytes.data + headerSize, { M with
          arenas := arenas
          memory := initializeHeader M.memory bytes.data size.toNat })
    | (_, arenas) => return (0, { M with arenas := arenas })

def arenaMalloc (M : Machine) (requested : Size) (reply : Result MutableByteView) :
    Option (ℕ × Machine) := do
  let M ← M.synchronize
  let size := if requested = 0#64 then 1#64 else requested
  let (previous, allocation) ← findFit M.memory size.toNat listBound 0 M.pool.freeList
  if allocation ≠ 0 then M.reuse size.toNat previous allocation else M.carve size reply

def arenaFree (M : Machine) (pointer : ℕ) : Option Machine :=
  if pointer = 0 then some M
  else do
    let M ← M.synchronize
    let allocation := pointer - headerSize
    return { M with
      memory := storeWord M.memory (nextAt allocation) M.pool.freeList
      pool := { M.pool with freeList := allocation } }

def arenaCalloc (M : Machine) (count size : Size) (reply : Result MutableByteView) :
    Option (ℕ × Machine) :=
  if count ≠ 0#64 ∧ size > sizeMax / count then some (0, M)
  else do
    let total := count * size
    let (result, M) ← M.arenaMalloc total reply
    if result ≠ 0 then
      return (result, { M with
        memory := storeCells M.memory result (List.replicate total.toNat (.byte 0#8)) })
    else return (result, M)

def arenaRealloc (M : Machine) (pointer : ℕ) (size : Size) (reply : Result MutableByteView) :
    Option (ℕ × Machine) :=
  if pointer = 0 then M.arenaMalloc size reply
  else if size = 0#64 then do
    let M ← M.arenaFree pointer
    return (0, M)
  else do
    let old := pointer - headerSize
    let capacity ← loadWord M.memory (capacityAt old)
    if size.toNat ≤ capacity then
      return (pointer, { M with memory := storeWord M.memory (usedAt old) size.toNat })
    else
      let (result, M) ← M.arenaMalloc size reply
      if result = 0 then return (0, M)
      else
        let used ← loadWord M.memory (usedAt old)
        let copied :=
          copyForward M.memory result pointer (if used < size.toNat then used else size.toNat)
        let M ← { M with memory := copied }.arenaFree pointer
        return (result, M)

end Machine

/-- A block the native library holds, with the size it last asked for. -/
structure LiveBlock where
  pointer : ℕ
  requested : Size
  deriving DecidableEq

/-- All blocks of a book. -/
def pointersOf (live : List LiveBlock) (freed : List ℕ) : List ℕ :=
  live.map LiveBlock.pointer ++ freed

/-- The payload size in the header before a pointer. -/
def capacityOf (m : Memory Cell) (p : ℕ) : ℕ := (loadWord m (capacityAt (p - headerSize))).getD 0

/-- A machine with the book its user keeps: the blocks it holds, and those it has
given back in the current generation of the arena and not received again. -/
structure World where
  machine : Machine
  live : List LiveBlock := []
  freed : List ℕ := []

/-- `write` is a write by the program around the pool. -/
inductive Call
  | malloc (requested : Size) (reply : Result MutableByteView)
  | calloc (count size : Size) (reply : Result MutableByteView)
  | realloc (pointer : ℕ) (size : Size) (reply : Result MutableByteView)
  | free (pointer : ℕ)
  | write (address : ℕ) (cells : List Cell)
  | arena (call : BoundedArenas.Call)

inductive Output
  | pointer (result : ℕ)
  | done
  | arena (output : BoundedArenas.Output)

namespace World

/-- The book after an allocation that returned `result`. -/
def received (w : World) (result : ℕ) (requested : Size) (M : Machine) : World :=
  if result = 0 then { w with machine := M }
  else { w with
    machine := M
    live := ⟨result, requested⟩ :: w.live
    freed := w.freed.erase result }

/-- The book after a block was given back. -/
def returned (w : World) (pointer : ℕ) (M : Machine) : World :=
  if pointer = 0 then { w with machine := M }
  else { w with
    machine := M
    live := w.live.filter (·.pointer ≠ pointer)
    freed := pointer :: w.freed }

/-- The book after a block grew or shrank where it is. -/
def resized (w : World) (pointer : ℕ) (size : Size) (M : Machine) : World :=
  { w with
    machine := M
    live := ⟨pointer, size⟩ :: w.live.filter (·.pointer ≠ pointer) }

def step (w : World) : Call → Option (Output × World)
  | .malloc requested reply => do
    let (result, M) ← w.machine.arenaMalloc requested reply
    return (.pointer result, w.received result requested M)
  | .calloc count size reply => do
    let (result, M) ← w.machine.arenaCalloc count size reply
    return (.pointer result, w.received result (count * size) M)
  | .realloc pointer size reply => do
    let (result, M) ← w.machine.arenaRealloc pointer size reply
    if pointer = 0 then return (.pointer result, w.received result size M)
    else if size = 0#64 then return (.pointer result, w.returned pointer M)
    else if result = pointer then return (.pointer result, w.resized pointer size M)
    else if result = 0 then return (.pointer result, { w with machine := M })
    else return (.pointer result, (w.received result size M).returned pointer M)
  | .free pointer => do
    let M ← w.machine.arenaFree pointer
    return (.done, w.returned pointer M)
  | .write address cells =>
    some (.done, { w with
      machine := { w.machine with memory := storeCells w.machine.memory address cells } })
  | .arena call => do
    let (output, arenas) ← w.machine.arenas.step call
    return (.arena output, { w with
      machine := { w.machine with arenas := arenas }
      freed := if isReset w.machine.pool.arena call output then [] else w.freed })

/-- A pointer is freed or reallocated while its user holds it, and the arena is reset
only when no block is held. The program writes to blocks it holds, up to the size it
asked for, and outside all blocks. -/
def Legal (w : World) : Call → Prop
  | .malloc _ _ => True
  | .calloc _ _ _ => True
  | .realloc pointer _ _ => pointer = 0 ∨ ∃ b ∈ w.live, b.pointer = pointer
  | .free pointer => pointer = 0 ∨ ∃ b ∈ w.live, b.pointer = pointer
  | .write address cells =>
    (∃ b ∈ w.live, b.pointer ≤ address ∧
      address + cells.length ≤ b.pointer + b.requested.toNat) ∨
    ∀ p ∈ pointersOf w.live w.freed,
      address + cells.length ≤ p - headerSize ∨ p + capacityOf w.machine.memory p ≤ address
  | .arena call => w.machine.arenas.Legal call ∧
      ∀ worker boundary reply, call = .reset w.machine.pool.arena worker boundary reply →
        w.live = []

def system : Runs.System World Call Output where
  legal := Legal
  step := step

/-- A pool that has just been constructed over an arena of a program. -/
def Opened (w : World) : Prop :=
  (∃ trace, Runs.Run BoundedArenas.World.system {} trace w.machine.arenas) ∧
    (∃ x, w.machine.arenas.arenas.get? w.machine.pool.arena = some x ∧
      w.machine.pool.generation = x.generation) ∧
    w.machine.pool.freeList = 0 ∧ w.live = [] ∧ w.freed = []

end World

end Laghu.NativeMemory
