import Laghu.BudgetRuns
import Laghu.CapacityGrowth
import Laghu.Views

/-!
Bump arenas, the pins that hold them, and the generations that invalidate their
views. Each arena draws one block from its source and hands out consecutive
aligned ranges of it until it is reset. What the source answers is an argument
of each call that may reach it.
-/

namespace Laghu.BoundedArenas

open Contract CheckedArithmetic ObjectTable MemoryBudgets CapacityGrowth Views

/-- Which of the two callbacks are non-null. -/
structure ArenaBlockSource where
  acquire : Bool
  reset : Bool
  deriving DecidableEq

structure BoundedArena where
  worker : WorkerId
  budget : ℕ
  source : ArenaBlockSource
  storage : MutableByteView := .empty
  reservation : MemoryReservation := {}
  initialCapacity : Size
  maximumCapacity : Size
  capacity : Size := 0#64
  offset : Size := 0#64
  livePins : Size := 0#64
  generation : BitVec 64 := 1#64
  deriving DecidableEq

structure ArenaPin where
  arena : Option ℕ := none
  deriving DecidableEq

structure ArenaView where
  arena : Option ℕ := none
  bytes : MutableByteView := .empty
  generation : BitVec 64 := 0#64
  deriving DecidableEq

structure ArenaQuiescentBoundary where
  arena : ℕ
  generation : BitVec 64
  deriving DecidableEq

namespace BoundedArena

def construct (worker : WorkerId) (budget : ℕ) (source : ArenaBlockSource)
    (initialCapacity maximumCapacity : Size) : BoundedArena :=
  { worker := worker, budget := budget, source := source, initialCapacity := initialCapacity,
    maximumCapacity := maximumCapacity }

def isValidAlignment (alignment : Size) : Bool :=
  alignment != 0#64 && (alignment &&& (alignment - 1)) == 0#64

def requireWorker (a : BoundedArena) (worker : WorkerId) : Result Unit :=
  if worker.value ≠ a.worker.value then
    .error (coreError .invalidState "bounded arena accessed by a different worker")
  else .ok ()

def pin (a : BoundedArena) (this : ℕ) (worker : WorkerId) : Result ArenaPin × BoundedArena :=
  match a.requireWorker worker with
  | .error e => (.error e, a)
  | .ok () =>
    if a.livePins = sizeMax then
      (.error (coreError .exhaustion "bounded arena pin capacity is exhausted"), a)
    else (.ok { arena := some this }, { a with livePins := a.livePins + 1 })

def releasePin (a : BoundedArena) : Option BoundedArena :=
  if a.livePins = 0#64 then none else some { a with livePins := a.livePins - 1 }

/-- The callback passed to `reserve_for_allocation`: it captures the variable
that receives the block. -/
def firstAcquisition (maximumCapacity : Size) (reply : Result MutableByteView)
    (acquired : MutableByteView) : Result Unit × MutableByteView :=
  match reply with
  | .error e => (.error e, acquired)
  | .ok block =>
    if block.size < maximumCapacity then
      (.error (coreError .exhaustion "bounded arena block source is smaller than the maximum"),
        acquired)
    else (.ok (), block)

/-- The part of `ensure_capacity` that extends the arena to `target` bytes. -/
def extendTo (a : BoundedArena) (bs : Budgets) (worker : WorkerId) (target : Size)
    (reply : Result MutableByteView) : Option (Result Unit × BoundedArena × Budgets) :=
  if !a.reservation.isActive then do
    let (result, bs', acquired) ← reserveForAllocation bs a.budget worker target
      (firstAcquisition a.maximumCapacity reply) .empty
    match result with
    | .error e => return (.error e, a, bs')
    | .ok reservation =>
      let (_, bs'') ← a.reservation.releaseUnchecked bs'
      return (.ok (), { a with
        storage := acquired
        reservation := reservation
        capacity := target }, bs'')
  else do
    match ← a.reservation.grow bs worker (target - a.capacity) with
    | (.error e, reservation, bs') => return (.error e, { a with reservation := reservation }, bs')
    | (.ok (), reservation, bs') =>
      return (.ok (), { a with reservation := reservation, capacity := target }, bs')

def ensureCapacity (a : BoundedArena) (bs : Budgets) (worker : WorkerId) (required : Size)
    (reply : Result MutableByteView) : Option (Result Unit × BoundedArena × Budgets) :=
  if !a.source.acquire ∨ !a.source.reset ∨ a.initialCapacity = 0#64 ∨
      a.initialCapacity > a.maximumCapacity then
    some (.error (coreError .invalidInput
      "bounded arena has an invalid block source or capacity"), a, bs)
  else if required ≤ a.capacity then some (.ok (), a, bs)
  else do
    let doubled ← doubleUntil a.maximumCapacity required rounds
      (if a.capacity = 0#64 then a.initialCapacity else a.capacity)
    let target := if doubled > a.maximumCapacity then a.maximumCapacity else doubled
    a.extendTo bs worker target reply

/-- The padding that aligns the next offset. -/
def padding (a : BoundedArena) (alignment : Size) : Size :=
  let remainder := a.offset % alignment
  if remainder = 0#64 then 0#64 else alignment - remainder

/-- Start and end of the next allocation. -/
def allocationRange (a : BoundedArena) (bytes alignment : Size) : Result (Size × Size) := do
  let alignedOffset ← checkedAdd a.offset (a.padding alignment)
  let required ← checkedAdd alignedOffset bytes
  return (alignedOffset, required)

/-- The part of `try_allocate` that takes `[alignedOffset, required)`. -/
def allocateAt (a : BoundedArena) (this : ℕ) (bs : Budgets) (worker : WorkerId)
    (alignedOffset bytes required : Size) (reply : Result MutableByteView) :
    Option (Result ArenaView × BoundedArena × Budgets) :=
  if required > a.maximumCapacity then
    some (.error (coreError .exhaustion "bounded arena maximum capacity is exhausted"), a, bs)
  else do
    match ← a.ensureCapacity bs worker required reply with
    | (.error e, a', bs') => return (.error e, a', bs')
    | (.ok (), a', bs') =>
      let range ← a'.storage.subspan alignedOffset bytes
      match MutableByteView.from range with
      | .error _ => none
      | .ok allocation =>
        return (.ok { arena := some this, bytes := allocation, generation := a'.generation },
          { a' with offset := required }, bs')

def tryAllocate (a : BoundedArena) (this : ℕ) (bs : Budgets) (worker : WorkerId)
    (bytes alignment : Size) (reply : Result MutableByteView) :
    Option (Result ArenaView × BoundedArena × Budgets) :=
  match a.requireWorker worker with
  | .error e => some (.error e, a, bs)
  | .ok () =>
    if !isValidAlignment alignment then
      some (.error (coreError .invalidInput
        "bounded arena alignment must be a nonzero power of two"), a, bs)
    else if bytes = 0#64 then
      some (.ok { arena := some this, bytes := .empty, generation := a.generation }, a, bs)
    else
      match a.allocationRange bytes alignment with
      | .error e => some (.error e, a, bs)
      | .ok (alignedOffset, required) =>
        a.allocateAt this bs worker alignedOffset bytes required reply

def quiescentBoundary (a : BoundedArena) (this : ℕ) (worker : WorkerId) :
    Result ArenaQuiescentBoundary :=
  match a.requireWorker worker with
  | .error e => .error e
  | .ok () => .ok { arena := this, generation := a.generation }

def reset (a : BoundedArena) (this : ℕ) (bs : Budgets) (worker : WorkerId)
    (boundary : ArenaQuiescentBoundary) (reply : Result Unit) :
    Option (Result Unit × BoundedArena × Budgets) :=
  match a.requireWorker worker with
  | .error e => some (.error e, a, bs)
  | .ok () =>
    if boundary.arena ≠ this ∨ boundary.generation ≠ a.generation then
      some (.error (coreError .invalidState
        "bounded arena reset requires its current quiescent boundary"), a, bs)
    else if a.livePins ≠ 0#64 then
      some (.error (coreError .invalidState
        "bounded arena reset requires all live pins to be released"), a, bs)
    else if a.generation = sizeMax then
      some (.error (coreError .overflow "bounded arena generation is exhausted"), a, bs)
    else if !a.source.reset then
      some (.error (coreError .invalidInput "bounded arena has an invalid block source"), a, bs)
    else
      match reply with
      | .error e => some (.error e, a, bs)
      | .ok () => do
        let (_, reservation, bs') ← a.reservation.release bs worker
        return (.ok (), { a with
          reservation := reservation
          storage := .empty
          capacity := 0#64
          offset := 0#64
          generation := a.generation + 1 }, bs')

def viewFor (a : BoundedArena) (bytes : MutableByteView) (generation : BitVec 64) :
    Result MutableByteView :=
  if generation ≠ a.generation then
    .error (coreError .invalidState "bounded arena view was invalidated by reset")
  else .ok bytes

end BoundedArena

/-- All arenas of a program with their pins and the boundaries they have
issued, next to the budget tree and the other reservations. -/
structure World where
  budgets : Budgets := .empty
  reservations : Table MemoryReservation := .empty
  arenas : Table BoundedArena := .empty
  pins : Table ArenaPin := .empty
  boundaries : List ArenaQuiescentBoundary := []

inductive Call
  | construct (worker : WorkerId) (budget : ℕ) (source : ArenaBlockSource)
      (initialCapacity maximumCapacity : Size)
  | tryAllocate (arena : ℕ) (worker : WorkerId) (bytes alignment : Size)
      (reply : Result MutableByteView)
  | quiescentBoundary (arena : ℕ) (worker : WorkerId)
  | reset (arena : ℕ) (worker : WorkerId) (boundary : ℕ) (reply : Result Unit)
  | pin (arena : ℕ) (worker : WorkerId)
  | defaultPin
  | movePin (source : ℕ)
  | assignPin (target source : ℕ)
  | destroyPin (pin : ℕ)
  | budgets (call : MemoryBudgets.Call)

/-- A boundary is returned as its number among all boundaries issued. -/
inductive Output
  | done (result : Result Unit)
  | view (result : Result ArenaView)
  | boundary (result : Result ℕ)

/-- The call returned an error. -/
def Output.failed : Output → Bool
  | .done (.error _) => true
  | .view (.error _) => true
  | .boundary (.error _) => true
  | _ => false

namespace World

/-- `ArenaView::bytes`. -/
def viewBytes (w : World) (v : ArenaView) : Option (Result MutableByteView) :=
  match v.arena with
  | none => some (.error (coreError .invalidState "bounded arena view is empty"))
  | some arena => do
    let a ← w.arenas.get? arena
    return a.viewFor v.bytes v.generation

/-- `ArenaPin::release` on a pin that refers to `arena`. -/
def releasePin (w : World) (p : ArenaPin) : Option World :=
  match p.arena with
  | none => some w
  | some arena => do
    let a ← w.arenas.get? arena
    let a' ← a.releasePin
    return { w with arenas := w.arenas.set arena a' }

def assignPin (w : World) (target source : ℕ) : Option World :=
  if target = source then some w
  else do
    let old ← w.pins.get? target
    let moved ← w.pins.get? source
    let w' ← w.releasePin old
    return { w' with pins := (w'.pins.set target moved).set source {} }

def heap (w : World) : Heap := ⟨w.budgets, w.reservations⟩

def step (w : World) : Call → Option (Output × World)
  | .construct worker budget source initialCapacity maximumCapacity =>
    some (.done (.ok ()), { w with
      arenas := w.arenas.push
        (.construct worker budget source initialCapacity maximumCapacity) })
  | .tryAllocate arena worker bytes alignment reply => do
    let a ← w.arenas.get? arena
    let (result, a', bs) ← a.tryAllocate arena w.budgets worker bytes alignment reply
    return (.view result, { w with budgets := bs, arenas := w.arenas.set arena a' })
  | .quiescentBoundary arena worker => do
    let a ← w.arenas.get? arena
    match a.quiescentBoundary arena worker with
    | .error e => return (.boundary (.error e), w)
    | .ok boundary =>
      return (.boundary (.ok w.boundaries.length),
        { w with boundaries := w.boundaries ++ [boundary] })
  | .reset arena worker boundary reply => do
    let a ← w.arenas.get? arena
    let issued ← w.boundaries[boundary]?
    let (result, a', bs) ← a.reset arena w.budgets worker issued reply
    return (.done result, { w with budgets := bs, arenas := w.arenas.set arena a' })
  | .pin arena worker => do
    let a ← w.arenas.get? arena
    match a.pin arena worker with
    | (.error e, _) => return (.done (.error e), w)
    | (.ok p, a') =>
      return (.done (.ok ()),
        { w with arenas := w.arenas.set arena a', pins := w.pins.push p })
  | .defaultPin => some (.done (.ok ()), { w with pins := w.pins.push {} })
  | .movePin source => do
    let moved ← w.pins.get? source
    return (.done (.ok ()), { w with pins := (w.pins.set source {}).push moved })
  | .assignPin target source => do
    let w' ← w.assignPin target source
    return (.done (.ok ()), w')
  | .destroyPin pin => do
    let p ← w.pins.get? pin
    let w' ← w.releasePin p
    return (.done (.ok ()), { w' with pins := w'.pins.erase pin })
  | .budgets call => do
    let (result, h) ← w.heap.step call
    return (.done result, { w with budgets := h.budgets, reservations := h.reservations })

def arenaReservations (w : World) : Multiset MemoryReservation :=
  w.arenas.values.map BoundedArena.reservation

/-- Objects are used while they are alive, and the budget of an arena outlives
it. Boundaries are only those that arenas have issued. -/
def Legal (w : World) : Call → Prop
  | .construct _ budget _ _ _ => ∃ x, w.budgets.get? budget = some x
  | .tryAllocate arena _ _ _ _ => ∃ a, w.arenas.get? arena = some a
  | .quiescentBoundary arena _ => ∃ a, w.arenas.get? arena = some a
  | .reset arena _ boundary _ => (∃ a, w.arenas.get? arena = some a) ∧
      boundary < w.boundaries.length
  | .pin arena _ => ∃ a, w.arenas.get? arena = some a
  | .defaultPin => True
  | .movePin source => ∃ p, w.pins.get? source = some p
  | .assignPin target source => (∃ p, w.pins.get? target = some p) ∧
      ∃ p, w.pins.get? source = some p
  | .destroyPin pin => ∃ p, w.pins.get? pin = some p
  | .budgets call => Heap.Legal w.arenaReservations w.heap call ∧
      ∀ arena a, w.arenas.get? arena = some a → call ≠ .destroyBudget a.budget

def system : Runs.System World Call Output where
  legal := Legal
  step := step

end World

end Laghu.BoundedArenas
