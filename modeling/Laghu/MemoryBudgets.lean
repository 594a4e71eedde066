import Laghu.Contract
import Laghu.ParentChain
import Laghu.Runs

/-!
Hierarchical memory budgets and the move-only reservations charged to them.
Budgets are addressed by identity and link to their parents; every charge is a
loop from the budget up to its root. The counters are machine words, so the
guards and updates below wrap exactly where the source would.
-/

namespace Laghu.MemoryBudgets

open Contract ObjectTable ParentChain

structure MemoryBudget where
  worker : WorkerId
  limit : Size
  charged : Size := 0#64
  liveReservations : Size := 0#64
  liveChildren : Size := 0#64
  parent : Option ℕ := none
  deriving DecidableEq

/-- Inactive when `budget` is null, which is also the state of a moved-from,
released or default-constructed reservation. -/
structure MemoryReservation where
  budget : Option ℕ := none
  bytes : Size := 0#64
  deriving DecidableEq

abbrev Budgets := Table MemoryBudget

def lifetimeError : Error :=
  coreError .invalidState "memory budget still has live children or reservations"

namespace MemoryBudget

def owns (self : MemoryBudget) (worker : WorkerId) : Bool := self.worker.value == worker.value

def requireWorker (self : MemoryBudget) (worker : WorkerId) : Result Unit :=
  if !self.owns worker then
    .error (coreError .invalidState "memory budget accessed by a different worker")
  else .ok ()

def readyForDestruction (self : MemoryBudget) (worker : WorkerId) : Result Unit :=
  match self.requireWorker worker with
  | .error e => .error e
  | .ok () =>
    if self.liveReservations ≠ 0 ∨ self.liveChildren ≠ 0 then .error lifetimeError else .ok ()

/-- One round of the loop in `preflight_reservation`. -/
def admits (bytes : Size) (current : MemoryBudget) : Result Unit :=
  if bytes > current.limit - current.charged then
    .error (coreError .exhaustion "memory budget capacity is exhausted")
  else if current.liveReservations = sizeMax then
    .error (coreError .overflow "memory budget reservation count overflow")
  else .ok ()

/-- One round of the charging loop in `reserve`. -/
def charge (bytes : Size) (current : MemoryBudget) : MemoryBudget :=
  { current with
    charged := current.charged + bytes
    liveReservations := current.liveReservations + 1 }

/-- One round of the loop in `release`. -/
def discharge (bytes : Size) (current : MemoryBudget) : Option MemoryBudget :=
  if current.charged < bytes ∨ current.liveReservations = 0 then none
  else some { current with
    charged := current.charged - bytes
    liveReservations := current.liveReservations - 1 }

/-- One round of the loop in `grow_reservation`. -/
def extend (bytes : Size) (current : MemoryBudget) : MemoryBudget :=
  { current with charged := current.charged + bytes }

/-- One round of the loop in `shrink_reservation`. -/
def reduce (bytes : Size) (current : MemoryBudget) : Option MemoryBudget :=
  if current.charged < bytes then none
  else some { current with charged := current.charged - bytes }

def registerChild (self : MemoryBudget) : Option MemoryBudget :=
  if self.liveChildren = sizeMax then none
  else some { self with liveChildren := self.liveChildren + 1 }

def unregisterChild (self : MemoryBudget) : Option MemoryBudget :=
  if self.liveChildren = 0 then none
  else some { self with liveChildren := self.liveChildren - 1 }

end MemoryBudget

open MemoryBudget

def preflightReservation (bs : Budgets) (this : ℕ) (bytes : Size) : Option (Result Unit) :=
  check MemoryBudget.parent (admits bytes) (this + 1) (some this) bs

def reserve (bs : Budgets) (this : ℕ) (worker : WorkerId) (bytes : Size) :
    Option (Result MemoryReservation × Budgets) := do
  let self ← bs.get? this
  match self.requireWorker worker with
  | .error e => return (.error e, bs)
  | .ok () =>
    match ← preflightReservation bs this bytes with
    | .error e => return (.error e, bs)
    | .ok () =>
      let bs' ← forEach MemoryBudget.parent (fun current => some (charge bytes current))
        (this + 1) (some this) bs
      return (.ok { budget := some this, bytes := bytes }, bs')

def release (bs : Budgets) (this : ℕ) (bytes : Size) : Option Budgets :=
  forEach MemoryBudget.parent (discharge bytes) (this + 1) (some this) bs

def growReservation (bs : Budgets) (this : ℕ) (reservation : MemoryReservation)
    (additionalBytes : Size) : Option (Result Unit × MemoryReservation × Budgets) := do
  if reservation.budget ≠ some this then
    return (.error lifetimeError, reservation, bs)
  else
    match ← preflightReservation bs this additionalBytes with
    | .error e => return (.error e, reservation, bs)
    | .ok () =>
      if additionalBytes > sizeMax - reservation.bytes then
        return (.error (coreError .overflow "memory budget reservation size overflow"),
          reservation, bs)
      else
        let bs' ← forEach MemoryBudget.parent (fun current => some (extend additionalBytes current))
          (this + 1) (some this) bs
        return (.ok (), { reservation with bytes := reservation.bytes + additionalBytes }, bs')

def shrinkReservation (bs : Budgets) (this : ℕ) (reservation : MemoryReservation)
    (bytes : Size) : Option (Result Unit × MemoryReservation × Budgets) := do
  if reservation.budget ≠ some this then
    return (.error lifetimeError, reservation, bs)
  else if bytes > reservation.bytes then
    return (.error (coreError .invalidRange "memory reservation cannot shrink below zero"),
      reservation, bs)
  else
    let bs' ← forEach MemoryBudget.parent (reduce bytes) (this + 1) (some this) bs
    return (.ok (), { reservation with bytes := reservation.bytes - bytes }, bs')

namespace MemoryReservation

def isActive (r : MemoryReservation) : Bool := r.budget.isSome

def releaseUnchecked (bs : Budgets) (r : MemoryReservation) :
    Option (MemoryReservation × Budgets) :=
  match r.budget with
  | none => some (r, bs)
  | some budget => do
    let bs' ← MemoryBudgets.release bs budget r.bytes
    return ({}, bs')

def release (bs : Budgets) (r : MemoryReservation) (worker : WorkerId) :
    Option (Result Unit × MemoryReservation × Budgets) :=
  match r.budget with
  | none => some (.ok (), r, bs)
  | some budget => do
    let owner ← bs.get? budget
    match owner.requireWorker worker with
    | .error e => return (.error e, r, bs)
    | .ok () =>
      let (r', bs') ← releaseUnchecked bs r
      return (.ok (), r', bs')

def grow (bs : Budgets) (r : MemoryReservation) (worker : WorkerId) (additionalBytes : Size) :
    Option (Result Unit × MemoryReservation × Budgets) :=
  match r.budget with
  | none =>
    some (.error (coreError .invalidState "inactive memory reservation cannot grow"), r, bs)
  | some budget => do
    let owner ← bs.get? budget
    match owner.requireWorker worker with
    | .error e => return (.error e, r, bs)
    | .ok () => growReservation bs budget r additionalBytes

def shrink (bs : Budgets) (r : MemoryReservation) (worker : WorkerId) (bytes : Size) :
    Option (Result Unit × MemoryReservation × Budgets) :=
  match r.budget with
  | none =>
    some (.error (coreError .invalidState "inactive memory reservation cannot shrink"), r, bs)
  | some budget => do
    let owner ← bs.get? budget
    match owner.requireWorker worker with
    | .error e => return (.error e, r, bs)
    | .ok () => shrinkReservation bs budget r bytes

end MemoryReservation

/-- Charge first, then acquire. The callback runs on whatever state `σ` it
captured; when it fails, the temporary reservation is destroyed. -/
def reserveForAllocation {σ : Type} (bs : Budgets) (this : ℕ) (worker : WorkerId)
    (bytes : Size) (acquire : σ → Result Unit × σ) (captured : σ) :
    Option (Result MemoryReservation × Budgets × σ) := do
  match ← reserve bs this worker bytes with
  | (.error e, bs') => return (.error e, bs', captured)
  | (.ok reservation, bs') =>
    match acquire captured with
    | (.error e, captured') =>
      let (_, bs'') ← reservation.releaseUnchecked bs'
      return (.error e, bs'', captured')
    | (.ok (), captured') => return (.ok reservation, bs', captured')

/-- All budgets and all reservation objects of a program. -/
structure Heap where
  budgets : Budgets := .empty
  reservations : Table MemoryReservation := .empty
  deriving DecidableEq

/-- What a program can do with budgets and reservations. A callback that itself
uses budgets is the sequence: reserve, the calls it makes, and then the
destruction of the reservation or its move to the caller. -/
inductive Call
  | createRoot (worker : WorkerId) (limit : Size)
  | createChild (parent : ℕ) (limit : Size)
  | destroyBudget (budget : ℕ)
  | reserve (budget : ℕ) (worker : WorkerId) (bytes : Size)
  | reserveForAllocation (budget : ℕ) (worker : WorkerId) (bytes : Size)
      (acquisition : Result Unit)
  | grow (reservation : ℕ) (worker : WorkerId) (bytes : Size)
  | shrink (reservation : ℕ) (worker : WorkerId) (bytes : Size)
  | release (reservation : ℕ) (worker : WorkerId)
  | defaultConstruct
  | moveConstruct (source : ℕ)
  | moveAssign (target source : ℕ)
  | destroyReservation (reservation : ℕ)

namespace Heap

/-- `~MemoryBudget`. -/
def destroyBudget (bs : Budgets) (this : ℕ) : Option Budgets := do
  let self ← bs.get? this
  if self.liveReservations ≠ 0 ∨ self.liveChildren ≠ 0 then none
  else
    match self.parent with
    | none => return bs.erase this
    | some parent =>
      let owner ← bs.get? parent
      let owner' ← owner.unregisterChild
      return (bs.set parent owner').erase this

/-- The constructor that inherits the worker of an existing budget. -/
def createChild (bs : Budgets) (parent : ℕ) (limit : Size) : Option Budgets := do
  let owner ← bs.get? parent
  let owner' ← owner.registerChild
  return (bs.set parent owner').push
    { worker := owner.worker, limit := limit, parent := some parent }

/-- The object created from a returned reservation, when there is one. -/
def store (h : Heap) : Result MemoryReservation × Budgets → Result Unit × Heap
  | (.error e, bs) => (.error e, { h with budgets := bs })
  | (.ok r, bs) => (.ok (), { budgets := bs, reservations := h.reservations.push r })

def update (h : Heap) (id : ℕ) :
    Result Unit × MemoryReservation × Budgets → Result Unit × Heap
  | (result, r, bs) => (result, { budgets := bs, reservations := h.reservations.set id r })

def moveAssign (h : Heap) (target source : ℕ) : Option Heap :=
  if target = source then some h
  else do
    let old ← h.reservations.get? target
    let moved ← h.reservations.get? source
    let (_, bs) ← old.releaseUnchecked h.budgets
    return { budgets := bs, reservations := (h.reservations.set target moved).set source {} }

def step (h : Heap) : Call → Option (Result Unit × Heap)
  | .createRoot worker limit =>
    some (.ok (), { h with budgets := h.budgets.push { worker := worker, limit := limit } })
  | .createChild parent limit => do
    let bs ← createChild h.budgets parent limit
    return (.ok (), { h with budgets := bs })
  | .destroyBudget budget => do
    let bs ← destroyBudget h.budgets budget
    return (.ok (), { h with budgets := bs })
  | .reserve budget worker bytes => do
    let result ← reserve h.budgets budget worker bytes
    return h.store result
  | .reserveForAllocation budget worker bytes acquisition => do
    let (result, bs, _) ← reserveForAllocation h.budgets budget worker bytes
      (fun _ => (acquisition, ())) ()
    return h.store (result, bs)
  | .grow id worker bytes => do
    let r ← h.reservations.get? id
    let result ← r.grow h.budgets worker bytes
    return h.update id result
  | .shrink id worker bytes => do
    let r ← h.reservations.get? id
    let result ← r.shrink h.budgets worker bytes
    return h.update id result
  | .release id worker => do
    let r ← h.reservations.get? id
    let result ← r.release h.budgets worker
    return h.update id result
  | .defaultConstruct => some (.ok (), { h with reservations := h.reservations.push {} })
  | .moveConstruct source => do
    let moved ← h.reservations.get? source
    return (.ok (), { h with reservations := (h.reservations.set source {}).push moved })
  | .moveAssign target source => do
    let h' ← h.moveAssign target source
    return (.ok (), h')
  | .destroyReservation id => do
    let r ← h.reservations.get? id
    let (_, bs) ← r.releaseUnchecked h.budgets
    return (.ok (), { budgets := bs, reservations := h.reservations.erase id })

/-- The callers' side of the contract: objects are used while they are alive,
and a budget is not destroyed before its children and the reservations made on
it. `others` are reservations held elsewhere in the program. -/
def Legal (others : Multiset MemoryReservation) (h : Heap) : Call → Prop
  | .createRoot _ _ => True
  | .createChild parent _ => ∃ x, h.budgets.get? parent = some x
  | .destroyBudget budget => (∃ x, h.budgets.get? budget = some x) ∧
      (∀ r ∈ h.reservations.values + others, r.budget ≠ some budget) ∧
      (∀ c x, h.budgets.get? c = some x → x.parent ≠ some budget)
  | .reserve budget _ _ => ∃ x, h.budgets.get? budget = some x
  | .reserveForAllocation budget _ _ _ => ∃ x, h.budgets.get? budget = some x
  | .grow id _ _ => ∃ r, h.reservations.get? id = some r
  | .shrink id _ _ => ∃ r, h.reservations.get? id = some r
  | .release id _ => ∃ r, h.reservations.get? id = some r
  | .defaultConstruct => True
  | .moveConstruct source => ∃ r, h.reservations.get? source = some r
  | .moveAssign target source => (∃ r, h.reservations.get? target = some r) ∧
      ∃ r, h.reservations.get? source = some r
  | .destroyReservation id => ∃ r, h.reservations.get? id = some r

def system : Runs.System Heap Call (Result Unit) where
  legal := Legal 0
  step := step

/-- Every heap a program can build from nothing. -/
def Reachable (h : Heap) : Prop := Runs.Reachable system (fun s => s = {}) h

end Heap

end Laghu.MemoryBudgets
