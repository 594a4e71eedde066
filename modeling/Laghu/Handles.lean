import Laghu.Contract
import Laghu.ObjectTable
import Laghu.Runs

/-!
Owners of file descriptors. A handle closes its descriptor once, when it is closed,
overwritten or destroyed, and gives up the descriptor before it tries: whatever the
close operation answers, the handle is empty afterwards.
-/

namespace Laghu.Handles

open Contract
open ObjectTable (Table)

/-- `FileHandle` and `SocketHandle` have the same members and cannot be mixed. -/
inductive HandleKind
  | file | socket
  deriving DecidableEq

/-- `close` says whether there is a close function. -/
structure DescriptorOperations where
  context : ℕ
  close : Bool
  deriving DecidableEq

def defaultDescriptorOperations : DescriptorOperations := ⟨0, true⟩

/-- What a close function returned, and `errno` after it. -/
structure CloseReply where
  result : Int
  errno : Int

/-- What became of a descriptor: `merged` is a second owner that gave way to the first. -/
inductive Event
  | adopted (descriptor : Int)
  | closed (descriptor : Int)
  | released (descriptor : Int)
  | merged (descriptor : Int)
  deriving DecidableEq

def Event.descriptor : Event → Int
  | .adopted d => d
  | .closed d => d
  | .released d => d
  | .merged d => d

def invalidDescriptorError : Error where
  domain := .core
  code := .invalidInput
  nativeCode := Errno.EINVAL
  diagnostic := "descriptor adoption requires a non-negative descriptor"

/-- The result, and the close operation if it was invoked. -/
def closeDescriptorOnce (descriptor : Int) (operations : Option DescriptorOperations)
    (reply : CloseReply) : Result Unit × Option Event :=
  match operations with
  | none => (.error (coreError .invalidState "descriptor has no close operation"), none)
  | some operations =>
    if !operations.close then
      (.error (coreError .invalidState "descriptor has no close operation"), none)
    else if reply.result = 0 then (.ok (), some (.closed descriptor))
    else (.error (Error.fromErrno reply.errno "descriptor close failed"),
      some (.closed descriptor))

def invalidDescriptor : Int := -1

structure Handle where
  kind : HandleKind
  descriptor : Int := invalidDescriptor
  operations : Option DescriptorOperations := none
  deriving DecidableEq

namespace Handle

def isValid (h : Handle) : Bool := decide (0 ≤ h.descriptor)

def adopt (kind : HandleKind) (descriptor : Int) : Result Handle :=
  if descriptor < 0 then .error invalidDescriptorError
  else .ok ⟨kind, descriptor, some defaultDescriptorOperations⟩

def release (h : Handle) : Int × Handle :=
  (h.descriptor, { h with descriptor := invalidDescriptor, operations := none })

def close (h : Handle) (reply : CloseReply) : Result Unit × Handle × Option Event :=
  if !h.isValid then (.ok (), h, none)
  else
    let (descriptor, released) := h.release
    let (result, event) := closeDescriptorOnce descriptor h.operations reply
    (result, released, event)

/-- The handle that takes over, and what is left of the other one. -/
def moveFrom (h other : Handle) : Handle × Handle :=
  let (descriptor, released) := other.release
  let moved := { h with descriptor := descriptor, operations := other.operations }
  (if moved.isValid then moved else { moved with operations := none }, released)

/-- Move assignment between two different handles. -/
def assign (h other : Handle) (reply : CloseReply) : Handle × Handle × Option Event :=
  let (_, closed, event) := h.close reply
  let (moved, released) := closed.moveFrom other
  (moved, released, event)

/-- `reset` with a different handle. -/
def reset (h replacement : Handle) (reply : CloseReply) :
    Result Unit × Handle × Handle × Option Event :=
  if h.isValid && replacement.isValid && h.descriptor == replacement.descriptor then
    let (descriptor, released) := replacement.release
    (.ok (), h, released, some (.merged descriptor))
  else
    let (oldClose, closed, event) := h.close reply
    let (moved, released) := closed.moveFrom replacement
    (oldClose, moved, released, event)

end Handle

structure World where
  handles : Table Handle := .empty

/-- `adoptWith` is adoption with other operations than the default ones. -/
inductive Call
  | construct (kind : HandleKind)
  | adopt (kind : HandleKind) (descriptor : Int)
  | adoptWith (kind : HandleKind) (descriptor : Int) (operations : DescriptorOperations)
  | moveConstruct (source : ℕ)
  | moveAssign (target source : ℕ) (reply : CloseReply)
  | reset (target replacement : ℕ) (reply : CloseReply)
  | release (handle : ℕ)
  | close (handle : ℕ) (reply : CloseReply)
  | destroy (handle : ℕ) (reply : CloseReply)

/-- The result of a call, the descriptor that `release` returned, and what the call did
with a descriptor. -/
structure Output where
  result : Result Unit := .ok ()
  descriptor : Int := invalidDescriptor
  event : Option Event := none

namespace World

def step (w : World) : Call → Option (Output × World)
  | .construct kind => some ({}, { handles := w.handles.push { kind := kind } })
  | .adopt kind descriptor =>
    match Handle.adopt kind descriptor with
    | .error e => some ({ result := .error e }, w)
    | .ok h => some ({ event := some (.adopted descriptor) }, { handles := w.handles.push h })
  | .adoptWith kind descriptor operations =>
    some ({ event := some (.adopted descriptor) },
      { handles := w.handles.push ⟨kind, descriptor, some operations⟩ })
  | .moveConstruct source => do
    let other ← w.handles.get? source
    let (moved, released) := Handle.moveFrom { kind := other.kind } other
    return ({}, { handles := (w.handles.set source released).push moved })
  | .moveAssign target source reply => do
    let h ← w.handles.get? target
    let other ← w.handles.get? source
    if target = source then return ({}, w)
    else
      let (moved, released, event) := h.assign other reply
      return ({ event := event },
        { handles := (w.handles.set target moved).set source released })
  | .reset target replacement reply => do
    let h ← w.handles.get? target
    let other ← w.handles.get? replacement
    if target = replacement then return ({}, w)
    else
      let (result, moved, released, event) := h.reset other reply
      return ({ result := result, event := event },
        { handles := (w.handles.set target moved).set replacement released })
  | .release handle => do
    let h ← w.handles.get? handle
    let (descriptor, released) := h.release
    let event := if h.isValid then some (.released descriptor) else none
    return ({ descriptor := descriptor, event := event },
      { handles := w.handles.set handle released })
  | .close handle reply => do
    let h ← w.handles.get? handle
    let (result, closed, event) := h.close reply
    return ({ result := result, event := event }, { handles := w.handles.set handle closed })
  | .destroy handle reply => do
    let h ← w.handles.get? handle
    let (_, _, event) := h.close reply
    return ({ event := event }, { handles := w.handles.erase handle })

/-- How many handles own a descriptor. -/
def holders (w : World) (descriptor : Int) : ℕ :=
  w.handles.values.countP fun h => h.isValid && h.descriptor == descriptor

/-- No other handle owns the descriptor of `h`. -/
def Sole (w : World) (h : Handle) : Prop := h.isValid = true → w.holders h.descriptor ≤ 1

/-- A descriptor is adopted by one handle at a time, or by a second one that is to be
given to `reset` of the first: until then neither of the two gives the descriptor up. -/
def Legal (w : World) : Call → Prop
  | .construct _ => True
  | .adopt _ descriptor => w.holders descriptor ≤ 1
  | .adoptWith _ descriptor operations =>
    0 ≤ descriptor ∧ operations.close = true ∧ w.holders descriptor ≤ 1
  | .moveConstruct source => ∃ h, w.handles.get? source = some h
  | .moveAssign target source _ => ∃ h other, w.handles.get? target = some h ∧
      w.handles.get? source = some other ∧ h.kind = other.kind ∧ (target ≠ source → w.Sole h)
  | .reset target replacement _ => ∃ h other, w.handles.get? target = some h ∧
      w.handles.get? replacement = some other ∧ h.kind = other.kind ∧
      (target ≠ replacement → h.descriptor = other.descriptor ∨ w.Sole h)
  | .release handle => ∃ h, w.handles.get? handle = some h ∧ w.Sole h
  | .close handle _ => ∃ h, w.handles.get? handle = some h ∧ w.Sole h
  | .destroy handle _ => ∃ h, w.handles.get? handle = some h ∧ w.Sole h

def system : Runs.System World Call Output where
  legal := Legal
  step := step

end World

end Laghu.Handles
