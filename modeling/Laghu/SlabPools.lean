import Laghu.CheckedArithmetic
import Laghu.ObjectTable
import Laghu.Runs

/-!
Slab pools and their leases. A pool threads a free list through slots that its
caller owns; a lease is a movable handle on one slot. The objects live in the
slots, and their constructors and destructors do not touch the pool.
-/

namespace Laghu.SlabPools

open Contract CheckedArithmetic ObjectTable

/-- What compilation fixes: `sizeof` and `alignof` of a slot, and `NDEBUG`. -/
structure Build where
  slotBytes : Size
  slotAlignment : Size
  ndebug : Bool
  deriving DecidableEq

/-- `doubleRelease` says whether the callback is non-null. -/
structure SlabPoolDebugHooks where
  context : ℕ := 0
  doubleRelease : Bool := false
  deriving DecidableEq

/-- The union holds a live object or is vacant. -/
structure SlabPoolSlot (T : Type) where
  object : Option T := none
  next : Size := 0#64
  occupied : Bool := false
  deriving DecidableEq

/-- A span of slots; a null span is at address 0. -/
structure Storage (T : Type) where
  data : ℕ
  slots : List (SlabPoolSlot T)
  fits : slots.length < 2 ^ 64
  deriving DecidableEq

/-- `numeric_limits<size_t>::max()` marks the end of the free list. -/
def noSlot : Size := sizeMax

/-- `value` is the slot whose object `value_` points to. -/
structure Lease where
  pool : Option ℕ := none
  index : Size := noSlot
  value : Option Size := none
  active : Bool := false
  deriving DecidableEq

structure SlabPool (T : Type) where
  worker : WorkerId
  storage : Storage T
  capacity : Size
  alignment : Size
  freeHead : Size := noSlot
  liveLeases : Size := 0#64
  debugHooks : SlabPoolDebugHooks := {}
  initialized : Bool := false
  deriving DecidableEq

variable {T : Type}

namespace Storage

def size (s : Storage T) : Size := BitVec.ofNat 64 s.slots.length

def slot? (s : Storage T) (index : Size) : Option (SlabPoolSlot T) := s.slots[index.toNat]?

def next? (s : Storage T) (index : Size) : Option Size := (s.slot? index).map SlabPoolSlot.next

def modify (s : Storage T) (index : Size) (f : SlabPoolSlot T → SlabPoolSlot T) : Storage T where
  data := s.data
  slots := s.slots.modify index.toNat f
  fits := by rw [List.length_modify]; exact s.fits

/-- `std::destroy_at` needs a pointer to a live object. -/
def destroyAt (s : Storage T) (value : Option Size) : Option (Storage T) := do
  let index ← value
  let slot ← s.slot? index
  let _ ← slot.object
  return s.modify index (fun slot => { slot with object := none })

/-- The body of the loop in `initialize`. -/
def link (capacity : Size) (s : Storage T) (index : ℕ) : Storage T :=
  let next := if BitVec.ofNat 64 index + 1 = capacity then noSlot else BitVec.ofNat 64 index + 1
  s.modify (BitVec.ofNat 64 index) (fun slot => { slot with next := next, occupied := false })

end Storage

namespace SlabPool

def construct (worker : WorkerId) (storage : Storage T) (capacity alignment : Size)
    (debugHooks : SlabPoolDebugHooks) : SlabPool T :=
  { worker := worker, storage := storage, capacity := capacity, alignment := alignment,
    debugHooks := debugHooks }

def requiredStorageBytes (b : Build) (capacity : Size) : Result Size :=
  checkedMultiply capacity b.slotBytes

def isValidAlignment (alignment : Size) : Bool :=
  alignment != 0#64 && (alignment &&& (alignment - 1)) == 0#64

def requireWorker (x : SlabPool T) (worker : WorkerId) : Result Unit :=
  if worker.value ≠ x.worker.value then
    .error (coreError .invalidState "slab pool accessed by a different worker")
  else .ok ()

/-- The checks `initialize` makes before it touches a slot. -/
def checkLayout (b : Build) (x : SlabPool T) : Result Unit :=
  match requiredStorageBytes b x.capacity with
  | .error e => .error e
  | .ok _ =>
    if !isValidAlignment x.alignment ∨ x.alignment < b.slotAlignment then
      .error (coreError .invalidInput "slab pool alignment is invalid")
    else if x.capacity > 1#64 ∧ b.slotBytes % x.alignment ≠ 0#64 then
      .error (coreError .invalidInput
        "slab pool slot stride does not satisfy selected alignment")
    else if x.capacity = 0#64 then .ok ()
    else if x.storage.size < x.capacity ∨ x.storage.data = 0 ∨
        x.storage.data % x.alignment.toNat ≠ 0 then
      .error (coreError .invalidInput "slab pool storage does not satisfy its layout")
    else .ok ()

/-- The part of `initialize` after the checks. -/
def threaded (x : SlabPool T) : SlabPool T :=
  if x.capacity = 0#64 then { x with initialized := true }
  else { x with
    storage := (List.range x.capacity.toNat).foldl (Storage.link x.capacity) x.storage
    freeHead := 0#64
    initialized := true }

def initializePool (b : Build) (x : SlabPool T) : Result Unit × SlabPool T :=
  if x.initialized then (.ok (), x)
  else
    match x.checkLayout b with
    | .error e => (.error e, x)
    | .ok () => (.ok (), x.threaded)

/-- The part of `try_acquire` that takes the first free slot. -/
def takeSlot (x : SlabPool T) (this : ℕ) (value : T) : Option (Result Lease × SlabPool T) :=
  if x.freeHead = noSlot then
    some (.error (coreError .exhaustion "slab pool capacity is exhausted"), x)
  else do
    let slot ← x.storage.slot? x.freeHead
    if slot.occupied ∨ x.liveLeases = x.capacity then none
    else
      return (.ok { pool := some this, index := x.freeHead, value := some x.freeHead,
                    active := true },
        { x with
          freeHead := slot.next
          storage := x.storage.modify x.freeHead
            (fun slot => { slot with object := some value, occupied := true })
          liveLeases := x.liveLeases + 1 })

/-- `value` is what the constructor makes of the arguments. -/
def tryAcquire (b : Build) (x : SlabPool T) (this : ℕ) (worker : WorkerId) (value : T) :
    Option (Result Lease × SlabPool T) :=
  match x.requireWorker worker with
  | .error e => some (.error e, x)
  | .ok () =>
    match x.initializePool b with
    | (.error e, x') => some (.error e, x')
    | (.ok (), x') => x'.takeSlot this value

def releaseUnchecked (x : SlabPool T) (lease : Lease) : Option (SlabPool T × Lease) :=
  if !x.initialized ∨ lease.index ≥ x.capacity ∨ x.liveLeases = 0#64 then none
  else do
    let slot ← x.storage.slot? lease.index
    if !slot.occupied then none
    else
      let storage ← x.storage.destroyAt lease.value
      return ({ x with
          storage := storage.modify lease.index
            (fun slot => { slot with occupied := false, next := x.freeHead })
          freeHead := lease.index
          liveLeases := x.liveLeases - 1 },
        { lease with value := none, active := false })

def release (x : SlabPool T) (lease : Lease) (worker : WorkerId) :
    Option (Result Unit × SlabPool T × Lease) :=
  match x.requireWorker worker with
  | .error e => some (.error e, x, lease)
  | .ok () => do
    let (x', lease') ← x.releaseUnchecked lease
    return (.ok (), x', lease')

/-- The contexts that hooks were called with. -/
def reportDoubleRelease (b : Build) (x : SlabPool T) : Option (List ℕ) :=
  if b.ndebug then some []
  else if x.debugHooks.doubleRelease then some [x.debugHooks.context]
  else none

end SlabPool

/-- All pools of one object type with their leases, and the reports that the
debug hooks have received. -/
structure World (T : Type) where
  pools : Table (SlabPool T) := .empty
  leases : Table Lease := .empty
  reports : List ℕ := []

inductive Call (T : Type)
  | construct (worker : WorkerId) (storage : Storage T) (capacity alignment : Size)
      (debugHooks : SlabPoolDebugHooks)
  | tryAcquire (pool : ℕ) (worker : WorkerId) (value : T)
  | release (lease : ℕ) (worker : WorkerId)
  | defaultLease
  | moveLease (source : ℕ)
  | assignLease (target source : ℕ)
  | destroyLease (lease : ℕ)
  | destroyPool (pool : ℕ)

def inactiveLeaseError : Error := coreError .invalidState "slab pool lease is inactive"

/-- `Lease::release_unchecked`. -/
def Lease.releaseUnchecked (pools : Table (SlabPool T)) (lease : Lease) :
    Option (Table (SlabPool T) × Lease) :=
  if lease.active then do
    let p ← lease.pool
    let x ← pools.get? p
    let (x', lease') ← x.releaseUnchecked lease
    return (pools.set p x', lease')
  else some (pools, lease)

namespace World

/-- `Lease::release` on lease `k`. -/
def release (b : Build) (w : World T) (k : ℕ) (lease : Lease) (worker : WorkerId) :
    Option (Result Unit × World T) :=
  match lease.pool with
  | none => some (.error inactiveLeaseError, w)
  | some p => do
    let x ← w.pools.get? p
    if !lease.active then do
      let reports ← x.reportDoubleRelease b
      return (.error inactiveLeaseError, { w with reports := w.reports ++ reports })
    else
      let (result, x', lease') ← x.release lease worker
      return (result, { w with pools := w.pools.set p x', leases := w.leases.set k lease' })

/-- `operator=(Lease&&)`. -/
def assignLease (w : World T) (target source : ℕ) : Option (World T) :=
  if target = source then some w
  else do
    let old ← w.leases.get? target
    let moved ← w.leases.get? source
    let (pools, _) ← old.releaseUnchecked w.pools
    return { w with pools := pools, leases := (w.leases.set target moved).set source {} }

def step (b : Build) (w : World T) : Call T → Option (Result Unit × World T)
  | .construct worker storage capacity alignment debugHooks =>
    some (.ok (), { w with
      pools := w.pools.push (.construct worker storage capacity alignment debugHooks) })
  | .tryAcquire pool worker value => do
    let x ← w.pools.get? pool
    match ← x.tryAcquire b pool worker value with
    | (.error e, x') => return (.error e, { w with pools := w.pools.set pool x' })
    | (.ok lease, x') =>
      return (.ok (), { w with pools := w.pools.set pool x', leases := w.leases.push lease })
  | .release lease worker => do
    let l ← w.leases.get? lease
    w.release b lease l worker
  | .defaultLease => some (.ok (), { w with leases := w.leases.push {} })
  | .moveLease source => do
    let moved ← w.leases.get? source
    return (.ok (), { w with leases := (w.leases.set source {}).push moved })
  | .assignLease target source => do
    let w' ← w.assignLease target source
    return (.ok (), w')
  | .destroyLease lease => do
    let l ← w.leases.get? lease
    let (pools, _) ← l.releaseUnchecked w.pools
    return (.ok (), { w with pools := pools, leases := w.leases.erase lease })
  | .destroyPool pool => do
    let x ← w.pools.get? pool
    if x.liveLeases ≠ 0#64 then none
    else return (.ok (), { w with pools := w.pools.erase pool })

/-- Objects are used while they are alive. The pool of a lease is used by
`release` even when the lease is inactive, so it must still exist then. -/
def Legal (w : World T) : Call T → Prop
  | .construct _ _ _ _ _ => True
  | .tryAcquire pool _ _ => ∃ x, w.pools.get? pool = some x
  | .release lease _ => ∃ l, w.leases.get? lease = some l ∧
      ∀ p, l.pool = some p → ∃ x, w.pools.get? p = some x
  | .defaultLease => True
  | .moveLease source => ∃ l, w.leases.get? source = some l
  | .assignLease target source => (∃ l, w.leases.get? target = some l) ∧
      ∃ l, w.leases.get? source = some l
  | .destroyLease lease => ∃ l, w.leases.get? lease = some l
  | .destroyPool pool => ∃ x, w.pools.get? pool = some x

def system (b : Build) : Runs.System (World T) (Call T) (Result Unit) where
  legal := Legal
  step := step b

end World

end Laghu.SlabPools
