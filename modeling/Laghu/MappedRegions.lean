import Laghu.CheckedArithmetic
import Laghu.Handles

/-!
Memory mappings that own their file. A region has a file handle as a member, so that the
handles of regions and the handles of the program are objects of one kind and live in one
table. The program keeps two records: every call made on a handle, and every call made of
the native mapping operations. A mapping is known by a number that is never used again,
whatever address the system chooses for it.
-/

namespace Laghu.MappedRegions

open Contract CheckedArithmetic Handles
open ObjectTable (Table)

/-- `unknown` is a value of the underlying integer that is no enumerator. -/
inductive MappingAccess
  | readOnly | readWrite
  | unknown (value : BitVec 8)
  deriving DecidableEq

inductive MappingFlush
  | synchronous | asynchronous
  | unknown (value : BitVec 8)
  deriving DecidableEq

def isValidAccess (access : MappingAccess) : Bool := access = .readOnly || access = .readWrite

def isValidFlush (mode : MappingFlush) : Bool := mode = .synchronous || mode = .asynchronous

/-- Which functions are there; `failedMapping` is the address that stands for a failure. -/
structure MappingOperations where
  context : ℕ
  map : Bool
  unmap : Bool
  flush : Bool
  protect : Bool
  pageSize : Bool
  fileSize : Bool
  openSharedMemory : Bool
  failedMapping : BitVec 64
  deriving DecidableEq

def defaultMappingOperations : MappingOperations :=
  ⟨0, true, true, true, true, true, true, true, 18446744073709551615#64⟩

/-- What a native function returned, and `errno` after it. -/
structure NativeReply where
  result : Int
  errno : Int

/-- `page_size` returns a `long`. -/
structure PageReply where
  size : BitVec 64
  errno : Int

/-- The answers that a request to map may meet with. -/
structure MapReply where
  page : PageReply
  fileSize : NativeReply
  sourceSize : BitVec 64
  address : BitVec 64
  errno : Int

/-- The largest `off_t`. -/
def offsetMax : BitVec 64 := 9223372036854775807#64

/-- A positive `long` has the same bits as an unsigned number. -/
def validateMappingRequest (file : Handle) (size : Size) (access : MappingAccess)
    (offset : BitVec 64) (operations : MappingOperations) (reply : MapReply) : Result Unit := do
  require (file.isValid = true)
    (coreError .invalidInput "mapping requires an owned file descriptor")
  require (size ≠ 0#64) (coreError .invalidRange "mapping size must be nonzero")
  require (isValidAccess access = true) (coreError .invalidInput "mapping access is invalid")
  require (operations.map = true ∧ operations.unmap = true ∧ operations.flush = true ∧
      operations.protect = true ∧ operations.pageSize = true ∧ operations.fileSize = true ∧
      operations.failedMapping ≠ 0#64)
    (coreError .invalidState "mapping operations are incomplete")
  require (0 < reply.page.size.toInt)
    (Error.fromErrno reply.page.errno "mapping page size query failed")
  require (offset % reply.page.size = 0#64)
    (coreError .invalidRange "mapping offset must be page aligned")
  require (offset ≤ offsetMax)
    (coreError .overflow "mapping offset exceeds POSIX offset range")
  require (reply.fileSize.result = 0)
    (Error.fromErrno reply.fileSize.errno "mapping source size query failed")
  let expectedSize ← checkedAdd offset size
  require (reply.sourceSize = expectedSize)
    (coreError .invalidRange "mapping source does not have the required fixed size")

/-- An address in a mapping, with the number of the mapping. -/
structure Mapping where
  id : ℕ
  address : BitVec 64
  deriving DecidableEq

def mappingClosed : Error := coreError .invalidState "mapping is closed"

def pageRoundedRange (mapping : Option Mapping) (mappingSize : Size)
    (operations : Option MappingOperations) (offset length : Size) (page : PageReply) :
    Result (Mapping × Size) :=
  match mapping, operations with
  | some mapping, some _ => do
    require (length ≠ 0#64)
      (coreError .invalidRange "mapping operation range must be nonzero")
    checkedRange offset length mappingSize
    require (0 < page.size.toInt) (Error.fromErrno page.errno "mapping page size query failed")
    let start := offset - offset % page.size
    let finish ← checkedAdd offset length
    let remainder := finish % page.size
    let roundedEnd ←
      if remainder = 0#64 then .ok finish else checkedAdd finish (page.size - remainder)
    let mappingRemainder := mappingSize % page.size
    let roundedMappingSize ←
      if mappingRemainder = 0#64 then .ok mappingSize
      else checkedAdd mappingSize (page.size - mappingRemainder)
    require (roundedEnd ≤ roundedMappingSize)
      (coreError .invalidRange "mapping operation exceeds mapped pages")
    let address ← checkedAdd mapping.address start
    return (⟨mapping.id, address⟩, roundedEnd - start)
  | _, _ => .error mappingClosed

/-- `address` is null when there is no mapping, and `file` is the place of the member
handle in the table of all handles. -/
structure MappedRegion where
  address : Option Mapping := none
  size : Size := 0#64
  access : MappingAccess := .readOnly
  file : ℕ
  operations : Option MappingOperations := none
  deriving DecidableEq

/-- What is left of a region that gave its mapping away. -/
def MappedRegion.emptied (r : MappedRegion) : MappedRegion := { file := r.file }

structure MappedRegionView where
  address : Mapping
  size : Size
  writable : Bool
  deriving DecidableEq

/-- A mapping was created, or passed to a native function. -/
inductive Event
  | mapped (id : ℕ)
  | unmap (id : ℕ) (succeeded : Bool)
  | protect (id : ℕ)
  | flush (id : ℕ)
  deriving DecidableEq

def Event.id : Event → ℕ
  | .mapped id => id
  | .unmap id _ => id
  | .protect id => id
  | .flush id => id

/-- `handleTrace` and `history` are the two records, oldest first. -/
structure World where
  handles : Handles.World := {}
  regions : Table MappedRegion := .empty
  created : ℕ := 0
  handleTrace : List (Handles.Call × Handles.Output) := []
  history : List Event := []

/-- A reply of `shm_open`. -/
structure OpenReply where
  descriptor : Int
  errno : Int

/-- `handle` is a call on a handle of the program. Destroying a region closes it, and then
destroys its member handle. -/
inductive Call
  | handle (call : Handles.Call)
  | construct
  | mapFile (file : ℕ) (size : Size) (access : MappingAccess) (offset : BitVec 64)
      (reply : MapReply)
  | mapWithOperations (file : ℕ) (size : Size) (access : MappingAccess) (offset : BitVec 64)
      (operations : MappingOperations) (reply : MapReply)
  | mapSharedMemory (name : List Char) (size : Size) (access : MappingAccess)
      (opened : OpenReply) (reply : MapReply) (close : CloseReply)
  | view (region : ℕ)
  | flush (region : ℕ) (offset length : Size) (mode : MappingFlush) (page : PageReply)
      (reply : NativeReply)
  | protect (region : ℕ) (access : MappingAccess) (reply : NativeReply)
  | release (region : ℕ) (unmap : NativeReply)
  | close (region : ℕ) (unmap : NativeReply) (close : CloseReply)
  | moveConstruct (source : ℕ)
  | moveAssign (target source : ℕ) (unmap : NativeReply) (close : CloseReply)
  | destroy (region : ℕ) (unmap : NativeReply) (close member : CloseReply)

/-- `mapped` has the place of the new region, `released` that of the returned handle. -/
inductive Output
  | done (result : Result Unit)
  | mapped (result : Result ℕ)
  | released (result : Result ℕ)
  | viewed (result : Result MappedRegionView)

namespace World

/-- A call on a handle, with its entry in the record. -/
def handle (w : World) (call : Handles.Call) : Option (Handles.Output × World) := do
  let (o, handles) ← w.handles.step call
  return (o, { w with handles := handles, handleTrace := w.handleTrace ++ [(call, o)] })

def record (w : World) (event : Event) : World := { w with history := w.history ++ [event] }

/-- The handle is moved only when the mapping is there. -/
def mapWithOperations (w : World) (file : ℕ) (size : Size) (access : MappingAccess)
    (offset : BitVec 64) (operations : MappingOperations) (reply : MapReply) :
    Option (Result ℕ × World) := do
  let source ← w.handles.handles.get? file
  match validateMappingRequest source size access offset operations reply with
  | .error e => return (.error e, w)
  | .ok () =>
    if reply.address = 0#64 ∨ reply.address = operations.failedMapping then
      return (.error (Error.fromErrno reply.errno "mapping creation failed"), w)
    else
      let member := w.handles.handles.size
      let (_, w) ← w.handle (.moveConstruct file)
      return (.ok w.regions.size, { w.record (.mapped w.created) with
        created := w.created + 1
        regions := w.regions.push {
          address := some ⟨w.created, reply.address⟩
          size := size
          access := access
          file := member
          operations := some operations } })

def mapFile (w : World) (file : ℕ) (size : Size) (access : MappingAccess) (offset : BitVec 64)
    (reply : MapReply) : Option (Result ℕ × World) :=
  w.mapWithOperations file size access offset defaultMappingOperations reply

def checkName (name : List Char) : Result Unit := do
  require (2 ≤ name.length ∧ name.head? = some '/')
    (coreError .invalidInput "shared memory name must begin with one slash")
  require ('/' ∉ name.tail)
    (coreError .invalidInput "shared memory name cannot contain another slash")

/-- The handle of the opened object is a local one, destroyed before the call returns. -/
def mapSharedMemory (w : World) (name : List Char) (size : Size) (access : MappingAccess)
    (opened : OpenReply) (reply : MapReply) (close : CloseReply) : Option (Result ℕ × World) :=
  match checkName name with
  | .error e => some (.error e, w)
  | .ok () =>
    if !isValidAccess access then
      some (.error (coreError .invalidInput "mapping access is invalid"), w)
    else if opened.descriptor < 0 then
      some (.error (Error.fromErrno opened.errno "shared memory open failed"), w)
    else do
      let file := w.handles.handles.size
      let (_, w) ← w.handle (.adopt .file opened.descriptor)
      let (result, w) ← w.mapWithOperations file size access 0#64 defaultMappingOperations reply
      let (_, w) ← w.handle (.destroy file close)
      return (result, w)

def view (w : World) (region : ℕ) : Option (Result MappedRegionView) := do
  let r ← w.regions.get? region
  match r.address with
  | none => return .error mappingClosed
  | some mapping => return .ok ⟨mapping, r.size, r.access = .readWrite⟩

def flush (w : World) (region : ℕ) (offset length : Size) (mode : MappingFlush)
    (page : PageReply) (reply : NativeReply) : Option (Result Unit × World) := do
  let r ← w.regions.get? region
  if !isValidFlush mode then
    return (.error (coreError .invalidInput "mapping flush mode is invalid"), w)
  else if !(r.operations.any fun operations => operations.flush && operations.pageSize) then
    return (.error (coreError .invalidState "mapping has no flush operation"), w)
  else
    match pageRoundedRange r.address r.size r.operations offset length page with
    | .error e => return (.error e, w)
    | .ok (pages, _) =>
      let w := w.record (.flush pages.id)
      if reply.result ≠ 0 then
        return (.error (Error.fromErrno reply.errno "mapping flush failed"), w)
      else return (.ok (), w)

def protect (w : World) (region : ℕ) (access : MappingAccess) (reply : NativeReply) :
    Option (Result Unit × World) := do
  let r ← w.regions.get? region
  match r.address with
  | none => return (.error mappingClosed, w)
  | some mapping =>
    if !isValidAccess access then
      return (.error (coreError .invalidInput "mapping access is invalid"), w)
    else if !(r.operations.any fun operations => operations.protect) then
      return (.error (coreError .invalidState "mapping has no protection operation"), w)
    else
      let w := w.record (.protect mapping.id)
      if reply.result ≠ 0 then
        return (.error (Error.fromErrno reply.errno "mapping protection change failed"), w)
      else
        return (.ok (), { w with regions := w.regions.set region { r with access := access } })

/-- The result is the place of the handle that was returned. -/
def release (w : World) (region : ℕ) (unmap : NativeReply) : Option (Result ℕ × World) := do
  let r ← w.regions.get? region
  match r.address with
  | none => return (.error mappingClosed, w)
  | some mapping =>
    if !(r.operations.any fun operations => operations.unmap) then
      return (.error (coreError .invalidState "mapping has no unmap operation"), w)
    else
      let w := w.record (.unmap mapping.id (unmap.result = 0))
      if unmap.result ≠ 0 then
        return (.error (Error.fromErrno unmap.errno "mapping release failed"), w)
      else
        let file := w.handles.handles.size
        let (_, w) ← w.handle (.moveConstruct r.file)
        return (.ok file, { w with regions := w.regions.set region r.emptied })

/-- The handle that `release` returned is closed and destroyed here. -/
def close (w : World) (region : ℕ) (unmap : NativeReply) (close : CloseReply) :
    Option (Result Unit × World) := do
  let r ← w.regions.get? region
  if r.address = none then
    let (o, w) ← w.handle (.close r.file close)
    return (o.result, w)
  else
    match ← w.release region unmap with
    | (.error e, w) => return (.error e, w)
    | (.ok file, w) =>
      let (o, w) ← w.handle (.close file close)
      let (_, w) ← w.handle (.destroy file close)
      return (o.result, w)

/-- The member handle of the target owns nothing, so that there is nothing to close. -/
def moveFrom (w : World) (target source : ℕ) : Option World := do
  let t ← w.regions.get? target
  let s ← w.regions.get? source
  let (_, w) ← w.handle (.moveAssign t.file s.file ⟨0, 0⟩)
  return { w with
    regions := (w.regions.set target { s with file := t.file }).set source s.emptied }

def construct (w : World) : Option World := do
  let file := w.handles.handles.size
  let (_, w) ← w.handle (.construct .file)
  return { w with regions := w.regions.push { file := file } }

def moveConstruct (w : World) (source : ℕ) : Option World := do
  let target := w.regions.size
  let w ← w.construct
  w.moveFrom target source

/-- Nothing is moved when the target cannot be closed. -/
def moveAssign (w : World) (target source : ℕ) (unmap : NativeReply) (close : CloseReply) :
    Option World :=
  if target = source then some w
  else do
    match ← w.close target unmap close with
    | (.error _, w) => return w
    | (.ok (), w) => w.moveFrom target source

def destroy (w : World) (region : ℕ) (unmap : NativeReply) (close member : CloseReply) :
    Option World := do
  let r ← w.regions.get? region
  let (_, w) ← w.close region unmap close
  let (_, w) ← w.handle (.destroy r.file member)
  return { w with regions := w.regions.erase region }

def step (w : World) : Call → Option (Output × World)
  | .handle call => do
    let (o, w) ← w.handle call
    return (.done o.result, w)
  | .construct => do
    let w ← w.construct
    return (.done (.ok ()), w)
  | .mapFile file size access offset reply => do
    let (result, w) ← w.mapFile file size access offset reply
    return (.mapped result, w)
  | .mapWithOperations file size access offset operations reply => do
    let (result, w) ← w.mapWithOperations file size access offset operations reply
    return (.mapped result, w)
  | .mapSharedMemory name size access opened reply close => do
    let (result, w) ← w.mapSharedMemory name size access opened reply close
    return (.mapped result, w)
  | .view region => do
    let result ← w.view region
    return (.viewed result, w)
  | .flush region offset length mode page reply => do
    let (result, w) ← w.flush region offset length mode page reply
    return (.done result, w)
  | .protect region access reply => do
    let (result, w) ← w.protect region access reply
    return (.done result, w)
  | .release region unmap => do
    let (result, w) ← w.release region unmap
    return (.released result, w)
  | .close region unmap close => do
    let (result, w) ← w.close region unmap close
    return (.done result, w)
  | .moveConstruct source => do
    let w ← w.moveConstruct source
    return (.done (.ok ()), w)
  | .moveAssign target source unmap close => do
    let w ← w.moveAssign target source unmap close
    return (.done (.ok ()), w)
  | .destroy region unmap close member => do
    let w ← w.destroy region unmap close member
    return (.done (.ok ()), w)

/-- The handle belongs to a region. -/
def Member (w : World) (file : ℕ) : Prop :=
  ∃ i r, w.regions.get? i = some r ∧ r.file = file

end World

/-- The handles that a call names. -/
def named : Handles.Call → List ℕ
  | .construct _ => []
  | .adopt _ _ => []
  | .adoptWith _ _ _ => []
  | .moveConstruct source => [source]
  | .moveAssign target source _ => [target, source]
  | .reset target replacement _ => [target, replacement]
  | .release handle => [handle]
  | .close handle _ => [handle]
  | .destroy handle _ => [handle]

/-- The descriptor that a call adopts. -/
def adopts : Handles.Call → Option Int
  | .adopt _ descriptor => some descriptor
  | .adoptWith _ descriptor _ => some descriptor
  | _ => none

namespace World

/-- A file that the program may hand over: one of its own file handles. -/
def Lends (w : World) (file : ℕ) : Prop :=
  (∃ h, w.handles.handles.get? file = some h ∧ h.kind = .file) ∧ ¬ w.Member file

/-- The program has no access to the member of a region, and a descriptor that is adopted,
like one that the system has just opened, has no owner yet. -/
def Legal (w : World) : Call → Prop
  | .handle call => w.handles.Legal call ∧ (∀ file ∈ named call, ¬ w.Member file) ∧
      ∀ d, adopts call = some d → w.handles.holders d = 0
  | .construct => True
  | .mapFile file _ _ _ _ => w.Lends file
  | .mapWithOperations file _ _ _ _ _ => w.Lends file
  | .mapSharedMemory _ _ _ opened _ _ => w.handles.holders opened.descriptor = 0
  | .view region => ∃ r, w.regions.get? region = some r
  | .flush region _ _ _ _ _ => ∃ r, w.regions.get? region = some r
  | .protect region _ _ => ∃ r, w.regions.get? region = some r
  | .release region _ => ∃ r, w.regions.get? region = some r
  | .close region _ _ => ∃ r, w.regions.get? region = some r
  | .moveConstruct source => ∃ r, w.regions.get? source = some r
  | .moveAssign target source _ _ =>
    (∃ r, w.regions.get? target = some r) ∧ ∃ r, w.regions.get? source = some r
  | .destroy region _ _ _ => ∃ r, w.regions.get? region = some r

def system : Runs.System World Call Output where
  legal := Legal
  step := step

end World

end Laghu.MappedRegions
