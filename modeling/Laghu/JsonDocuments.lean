import Laghu.BoundedArenas
import Laghu.DependencyErrors
import Laghu.FallibleSteps
import Laghu.JsonValidation
import Laghu.ObjectMemory

/-!
JSON documents in the memory of an arena. A document keeps a state cell and the pool of the
native parser in its arena; a value is a copy of pointers to both. Resetting the arena ends
every object in its block, and later the block holds other objects at the same addresses.
The operations follow the source: what they read is read from memory, and following a
pointer to an object that is not there is `none`.

Besides its objects the program has a record of its own, which no operation reads: the
ranges that arenas have handed out, what each native document was created with, and what
happened to them.
-/

namespace Laghu.JsonDocuments

open Contract BoundedArenas DependencyErrors FallibleSteps JsonValidation ObjectMemory Views
open ObjectTable (Table)
open BigEndian (Byte)

/-- A value as the native parser stores it. `real` has the bits of a `double`, and `raw` is
of a kind that the reader returns under flags that are not used here. -/
inductive Native
  | null
  | boolean (value : Bool)
  | unsigned (value : BitVec 64)
  | signed (value : BitVec 64)
  | real (bits : BitVec 64)
  | text (characters : List Byte)
  | array (items : List Native)
  | object (members : List (ObjectKey × Native))
  | raw (characters : List Byte)

namespace Native

mutual
/-- What the validation of a document looks at. -/
def toJson : Native → Json
  | .null => .null
  | .boolean value => .boolean value
  | .text characters => .string characters
  | .array items => .array (itemsToJson items)
  | .object members => .object (membersToJson members)
  | _ => .number

def itemsToJson : List Native → List Json
  | [] => []
  | item :: rest => item.toJson :: itemsToJson rest

def membersToJson : List (ObjectKey × Native) → List (ObjectKey × Json)
  | [] => []
  | (key, value) :: rest => (key, value.toJson) :: membersToJson rest
end

def child : Native → ℕ → Option Native
  | .array items, index => items[index]?
  | .object members, index => members[index]?.map Prod.snd
  | _, _ => none

/-- The value at the end of a path. -/
def follow : Native → List ℕ → Option Native
  | value, [] => some value
  | value, index :: rest => (value.child index).bind fun next => next.follow rest

/-! The accessors of the native library, with what they return for a value of another kind. -/

def getBool : Native → Bool
  | .boolean value => value
  | _ => false

def getUint : Native → BitVec 64
  | .unsigned value => value
  | _ => 0#64

def getSint : Native → BitVec 64
  | .signed value => value
  | _ => 0#64

def getReal : Native → BitVec 64
  | .real bits => bits
  | _ => 0#64

def getStr : Native → Option (List Byte)
  | .text characters => some characters
  | _ => none

def arrSize : Native → ℕ
  | .array items => items.length
  | _ => 0

def objSize : Native → ℕ
  | .object members => members.length
  | _ => 0

/-- The place of an element. -/
def arrGet : Native → Size → Option ℕ
  | .array items, index => if index.toNat < items.length then some index.toNat else none
  | _, _ => none

/-- The place of the first member with this key. -/
def objGetn : Native → List Byte → Option ℕ
  | .object members, key => members.findIdx? fun member => member.1 == key
  | _, _ => none

end Native

inductive JsonValueKind
  | null | boolean | unsignedInteger | signedInteger | real | text | array | object
  deriving DecidableEq

def valueKind : Native → Result JsonValueKind
  | .null => .ok .null
  | .boolean _ => .ok .boolean
  | .unsigned _ => .ok .unsignedInteger
  | .signed _ => .ok .signedInteger
  | .real _ => .ok .real
  | .text _ => .ok .text
  | .array _ => .ok .array
  | .object _ => .ok .object
  | .raw _ => .error (coreError .invalidState "yyjson returned an unsupported value kind")

def requireKind (value : Native) (expected : JsonValueKind) : Result Unit := do
  let actual ← valueKind value
  require (actual = expected)
    (coreError .invalidState "JSON value does not have the requested kind")

inductive Accessor
  | kind | boolean | unsignedInteger | signedInteger | real | text | arraySize | objectSize
  | arrayAt (index : Size)
  | objectMember (key : List Byte)

/-- What an accessor returns; `child` is the place of a value in its container. -/
inductive Reading
  | kind (kind : JsonValueKind)
  | boolean (value : Bool)
  | unsignedInteger (value : BitVec 64)
  | signedInteger (value : BitVec 64)
  | real (bits : BitVec 64)
  | text (characters : List Byte)
  | size (count : ℕ)
  | child (index : ℕ)

/-- The part of an accessor that follows `require_valid`. -/
def readNative (value : Native) (maximumLookupKeyBytes : Size) : Accessor → Result Reading
  | .kind => do
    let kind ← valueKind value
    return .kind kind
  | .boolean => do
    requireKind value .boolean
    return .boolean value.getBool
  | .unsignedInteger => do
    requireKind value .unsignedInteger
    return .unsignedInteger value.getUint
  | .signedInteger => do
    requireKind value .signedInteger
    return .signedInteger value.getSint
  | .real => do
    requireKind value .real
    return .real value.getReal
  | .text => do
    requireKind value .text
    match value.getStr with
    | none => .error (coreError .invalidState "yyjson string has no character data")
    | some characters => return .text characters
  | .arraySize => do
    requireKind value .array
    return .size value.arrSize
  | .objectSize => do
    requireKind value .object
    return .size value.objSize
  | .arrayAt index => do
    requireKind value .array
    match value.arrGet index with
    | none => .error (coreError .invalidRange "JSON array index is outside the array")
    | some index => return .child index
  | .objectMember key => do
    requireKind value .object
    require (key.length ≤ maximumLookupKeyBytes.toNat)
      (coreError .invalidRange "JSON lookup key exceeds the caller string limit")
    match value.objGetn key with
    | none =>
      .error (coreError .invalidInput "JSON object does not contain the requested member")
    | some index => return .child index

structure DocumentState where
  active : Bool := false
  epoch : BitVec 64 := 1#64
  deriving DecidableEq

/-- `origin` is the number of the native document. -/
inductive Object
  | state (state : DocumentState)
  | document (root : Native) (origin : ℕ)

/-- An address in a native document is that of its pool and a path. -/
structure NativePointer where
  pool : ℕ
  path : List ℕ

/-- `origin` is for the record only. -/
structure JsonDocument where
  nativeDocument : Option ℕ := none
  arena : Option ℕ := none
  documentState : Option ℕ := none
  arenaGeneration : BitVec 64 := 0#64
  maximumLookupKeyBytes : Size := 0#64
  origin : ℕ := 0

/-- `origin` is for the record only. -/
structure JsonValue where
  arena : Option ℕ
  documentState : Option ℕ
  nativeValue : Option NativePointer
  documentEpoch : BitVec 64
  arenaGeneration : BitVec 64
  maximumLookupKeyBytes : Size
  origin : ℕ

/-- What a range was handed out for; `number` counts the native documents before. -/
inductive Owner
  | view (number : ℕ)
  | input | frames | keys
  | state (number : ℕ)
  | pool (number : ℕ)
  deriving DecidableEq

/-- A range that an arena has handed out, with its generation then. -/
structure Spot where
  arena : ℕ
  generation : BitVec 64
  range : MutableByteView
  owner : Owner

/-- What a native document was created with. -/
structure Birth where
  arena : ℕ
  generation : BitVec 64
  state : MutableByteView
  pool : MutableByteView
  root : Native
  maximumLookupKeyBytes : Size

inductive Event
  | created (origin arena : ℕ)
  | reset (arena : ℕ)
  | freed (origin : ℕ)
  | touched (origin : ℕ)
  deriving DecidableEq

/-- `views` are the program's own, and `values` has every value that was obtained: copying
one adds nothing. -/
structure World where
  arenas : BoundedArenas.World := {}
  memory : Memory Object := []
  documents : Table JsonDocument := .empty
  values : List JsonValue := []
  views : List ArenaView := []
  spots : List Spot := []
  births : List Birth := []
  history : List Event := []

/-- What the native parser is told and answers: whether the pool is large enough, and the
value it has read or an error code. -/
structure ParserReply where
  pool : Bool
  document : Except Int Native

/-- The parts of the C++ and yyjson libraries that the source uses. -/
structure Externals where
  sort : List ObjectKey → List ObjectKey
  readErrorMemoryAllocation : Int

def sizeofDocumentState : Size := 16#64

def alignofDocumentState : Size := 8#64

def alignofTraversalFrame : Size := 8#64

def alignofObjectKey : Size := 8#64

def alignofMaxAlign : Size := 16#64

def yyjsonPoolMinimumBytes : Size := 64#64

namespace World

/-- A call on an arena. The owner of a range may write to it at any time, and after a reset
the block is the source's again. -/
def onArena (w : World) (owner : Owner) (call : BoundedArenas.Call) :
    Option (BoundedArenas.Output × World) := do
  let (o, arenas) ← w.arenas.step call
  match call, o with
  | .tryAllocate arena _ _ _ _, .view (.ok v) =>
    return (o, { w with
      arenas := arenas
      memory := claim w.memory v.bytes.data v.bytes.size.toNat
      spots := w.spots ++ [⟨arena, v.generation, v.bytes, owner⟩] })
  | .reset arena _ _ _, .done (.ok ()) => do
    let a ← w.arenas.arenas.get? arena
    return (o, { w with
      arenas := arenas
      memory := claim w.memory a.storage.data a.storage.size.toNat
      history := w.history ++ [.reset arena] })
  | _, _ => return (o, { w with arenas := arenas })

/-- `try_allocate` and `bytes`. -/
def storage (w : World) (owner : Owner) (arena : ℕ) (worker : WorkerId) (bytes alignment : Size)
    (reply : Result MutableByteView) : Option (Result (MutableByteView × BitVec 64) × World) := do
  let (o, w) ← w.onArena owner (.tryAllocate arena worker bytes alignment reply)
  match o with
  | .view (.error e) => return (.error e, w)
  | .view (.ok v) =>
    match ← w.arenas.viewBytes v with
    | .error e => return (.error e, w)
    | .ok bytes => return (.ok (bytes, v.generation), w)
  | _ => none

def loadState (w : World) (address : ℕ) : Option DocumentState :=
  match load w.memory address with
  | some (.state state) => some state
  | _ => none

def loadDocument (w : World) (address : ℕ) : Option (Native × ℕ) :=
  match load w.memory address with
  | some (.document root origin) => some (root, origin)
  | _ => none

def storeState (w : World) (address : ℕ) (state : DocumentState) : World :=
  { w with memory := replace w.memory address (.state state) }

/-- `yyjson_doc_free`. -/
def freeDocument (w : World) (address : ℕ) : Option World := do
  let (_, origin) ← w.loadDocument address
  return { w with memory := discard w.memory address, history := w.history ++ [.freed origin] }

/-- Reading a native value. -/
def touch (w : World) (pointer : NativePointer) : Option (Native × World) := do
  let (root, origin) ← w.loadDocument pointer.pool
  let value ← root.follow pointer.path
  return (value, { w with history := w.history ++ [.touched origin] })

/-- The native reader has built a document in the pool. -/
def createDocument (w : World) (birth : Birth) : World :=
  { w with
    memory := place w.memory birth.pool.data birth.pool.size.toNat
      (.document birth.root w.births.length)
    births := w.births ++ [birth]
    history := w.history ++ [.created w.births.length birth.arena] }

/-- The arena is there, and of the generation. -/
def isCurrent (w : World) (arena : Option ℕ) (generation : BitVec 64) : Option Bool :=
  match arena with
  | none => some false
  | some arena => do
    let a ← w.arenas.arenas.get? arena
    return a.generation = generation

/-- `JsonDocument::release` on a document with these members. -/
def release (w : World) (d : JsonDocument) : Option World := do
  let arenaIsCurrent ← w.isCurrent d.arena d.arenaGeneration
  let w ← match d.nativeDocument with
    | some address => if arenaIsCurrent then w.freeDocument address else some w
    | none => some w
  match d.documentState with
  | some address =>
    if arenaIsCurrent then do
      let state ← w.loadState address
      return w.storeState address { state with
        active := false
        epoch := if state.epoch ≠ sizeMax then state.epoch + 1 else state.epoch }
    else some w
  | none => some w

end World

def yyjsonError (externals : Externals) (code : Int) : Error :=
  normalizeDependencyError .yyjson .jsonParse
    (if code = externals.readErrorMemoryAllocation then .exhaustion else .invalidInput) code

abbrev Step := Action World Error

/-- `storage` as a step of `parse`. -/
def Step.storage (owner : Owner) (arena : ℕ) (worker : WorkerId) (bytes alignment : Size)
    (reply : Result MutableByteView) : Step (MutableByteView × BitVec 64) :=
  fun w => w.storage owner arena worker bytes alignment reply

/-- The arena as it is now. -/
def Step.arena (arena : ℕ) : Step BoundedArena :=
  perform fun w => (w.arenas.arenas.get? arena).map fun a => (a, w)

def Step.count : Step ℕ := perform fun w => some (w.births.length, w)

def Step.construct (state : MutableByteView) : Step Unit :=
  perform fun w => some ((), { w with
    memory := place w.memory state.data state.size.toNat (.state {}) })

def Step.create (birth : Birth) : Step Unit := perform fun w => some ((), w.createDocument birth)

def Step.free (address : ℕ) : Step Unit :=
  perform fun w => (w.freeDocument address).map fun w => ((), w)

/-- The end of `parse`: the document is active and returned. -/
def Step.activate (state : MutableByteView) (document : JsonDocument) : Step ℕ :=
  perform fun w => do
    let before ← w.loadState state.data
    let w := w.storeState state.data { before with active := true }
    return (w.documents.size, { w with documents := w.documents.push document })

/-- The padding in front of the pool, and what is left behind it. -/
def poolPadding (a : BoundedArena) : Size :=
  if a.offset % alignofMaxAlign = 0#64 then 0#64 else alignofMaxAlign - a.offset % alignofMaxAlign

def remainingCapacity (a : BoundedArena) : Size := a.maximumCapacity - a.offset

/-- The validation of a document, in storage that holds nothing yet. -/
def validate (externals : Externals) (root : Native) (limits : JsonDocumentLimits) (fuel : ℕ) :
    Iteration :=
  validateDocument externals.sort root.toJson
    (List.replicate limits.maximumNesting.toNat ⟨.null, 0, .enter, [], []⟩) limits.maximumNesting
    (List.replicate limits.maximumObjectMembers.toNat []) limits.maximumObjectMembers limits fuel

/-- The part of `parse` that follows the reading of a document. -/
def Step.finish (externals : Externals) (birth : Birth) (limits : JsonDocumentLimits)
    (fuel : ℕ) : Step ℕ := do
  let origin ← Step.count
  Step.create birth
  match validate externals birth.root limits fuel with
  | some (.finished (.error e)) => do
    Step.free birth.pool.data
    throw e
  | some (.finished (.ok ())) =>
    Step.activate birth.state {
      nativeDocument := some birth.pool.data
      arena := some birth.arena
      documentState := some birth.state.data
      arenaGeneration := birth.generation
      maximumLookupKeyBytes := birth.maximumLookupKeyBytes
      origin := origin }
  | _ => fun _ => none

/-- `reply` answers the one request to the source of the arena that may be made. -/
def parse (externals : Externals) (worker : WorkerId) (document : ByteView) (arena : ℕ)
    (limits : JsonDocumentLimits) (reply : Result MutableByteView) (parser : ParserReply)
    (fuel : ℕ) : Step ℕ := do
  outcome (validateLimits limits)
  check (document.size ≠ 0#64) (coreError .invalidInput "JSON document must not be empty")
  check (document.size ≤ limits.maximumDocumentBytes)
    (coreError .invalidRange "JSON document exceeds the caller byte limit")
  let a ← Step.arena arena
  check (a.offset ≤ a.maximumCapacity)
    (coreError .invalidState "bounded arena usage exceeds its capacity")
  let _ ← Step.storage .input arena worker document.size 1#64 reply
  let origin ← Step.count
  let (state, _) ← Step.storage (.state origin) arena worker sizeofDocumentState
    alignofDocumentState reply
  Step.construct state
  let _ ← Step.storage .frames arena worker (limits.maximumNesting * sizeofTraversalFrame)
    alignofTraversalFrame reply
  let _ ← Step.storage .keys arena worker (limits.maximumObjectMembers * sizeofObjectKey)
    alignofObjectKey reply
  let a ← Step.arena arena
  check (poolPadding a ≤ remainingCapacity a ∧
      yyjsonPoolMinimumBytes ≤ remainingCapacity a - poolPadding a)
    (coreError .exhaustion "bounded arena cannot hold a yyjson allocation pool")
  let (pool, generation) ← Step.storage (.pool origin) arena worker
    (remainingCapacity a - poolPadding a) alignofMaxAlign reply
  check (parser.pool = true)
    (coreError .exhaustion "bounded arena cannot initialize a yyjson allocation pool")
  match parser.document with
  | .error code => throw (yyjsonError externals code)
  | .ok root =>
    Step.finish externals ⟨arena, generation, state, pool, root, limits.maximumStringBytes⟩
      limits fuel

namespace JsonDocument

/-- The checks of `require_valid`, in the order in which pointers are followed. -/
def requireValid (d : JsonDocument) (w : World) : Option (Result Unit) :=
  match d.nativeDocument, d.arena, d.documentState with
  | some _, some arena, some documentState => do
    let a ← w.arenas.arenas.get? arena
    if a.generation ≠ d.arenaGeneration then
      return .error (coreError .invalidState "JSON document was invalidated by an arena reset")
    else
      let state ← w.loadState documentState
      if !state.active then
        return .error (coreError .invalidState "JSON document is no longer valid")
      else return .ok ()
  | _, _, _ => some (.error (coreError .invalidState "JSON document is no longer valid"))

end JsonDocument

namespace JsonValue

def requireValid (v : JsonValue) (w : World) : Option (Result Unit) :=
  match v.arena, v.documentState, v.nativeValue with
  | some arena, some documentState, some _ => do
    let a ← w.arenas.arenas.get? arena
    if a.generation ≠ v.arenaGeneration then
      return .error (coreError .invalidState "JSON value was invalidated by an arena reset")
    else
      let state ← w.loadState documentState
      if !state.active ∨ state.epoch ≠ v.documentEpoch then
        return .error (coreError .invalidState "JSON value is no longer valid")
      else return .ok ()
  | _, _, _ => some (.error (coreError .invalidState "JSON value is no longer valid"))

end JsonValue

/-- `write` is a write by the program to one of its own views. -/
inductive Call
  | arena (call : BoundedArenas.Call)
  | write (view : ℕ)
  | parse (worker : WorkerId) (document : ByteView) (arena : ℕ) (limits : JsonDocumentLimits)
      (reply : Result MutableByteView) (parser : ParserReply) (fuel : ℕ)
  | moveConstruct (source : ℕ)
  | moveAssign (target source : ℕ)
  | destroy (document : ℕ)
  | root (document : ℕ)
  | access (value : ℕ) (accessor : Accessor)

/-- Documents and values are returned as their places. -/
inductive Output
  | arena (output : BoundedArenas.Output)
  | done (result : Result Unit)
  | parsed (result : Result ℕ)
  | value (result : Result ℕ)
  | reading (result : Result Reading)

namespace World

def arena (w : World) (call : BoundedArenas.Call) : Option (Output × World) := do
  let (o, w) ← w.onArena (.view w.views.length) call
  match o with
  | .view (.ok v) => return (.arena o, { w with views := w.views ++ [v] })
  | _ => return (.arena o, w)

def write (w : World) (view : ℕ) : Option (Output × World) := do
  let v ← w.views[view]?
  match ← w.arenas.viewBytes v with
  | .error e => return (.done (.error e), w)
  | .ok bytes =>
    return (.done (.ok ()), { w with memory := claim w.memory bytes.data bytes.size.toNat })

def moveConstruct (w : World) (source : ℕ) : Option (Output × World) := do
  let d ← w.documents.get? source
  return (.done (.ok ()), { w with documents := (w.documents.set source {}).push d })

def moveAssign (w : World) (target source : ℕ) : Option (Output × World) := do
  let t ← w.documents.get? target
  let d ← w.documents.get? source
  if target = source then return (.done (.ok ()), w)
  else
    let w ← w.release t
    return (.done (.ok ()), { w with documents := (w.documents.set target d).set source {} })

def destroy (w : World) (document : ℕ) : Option (Output × World) := do
  let d ← w.documents.get? document
  let w ← w.release d
  return (.done (.ok ()), { w with documents := w.documents.erase document })

def root (w : World) (document : ℕ) : Option (Output × World) := do
  let d ← w.documents.get? document
  match ← d.requireValid w with
  | .error e => return (.value (.error e), w)
  | .ok () =>
    let address ← d.nativeDocument
    let documentState ← d.documentState
    let state ← w.loadState documentState
    let (_, w) ← w.touch ⟨address, []⟩
    return (.value (.ok w.values.length), { w with values := w.values ++ [{
      arena := d.arena
      documentState := d.documentState
      nativeValue := some ⟨address, []⟩
      documentEpoch := state.epoch
      arenaGeneration := d.arenaGeneration
      maximumLookupKeyBytes := d.maximumLookupKeyBytes
      origin := d.origin }] })

/-- A child is a new value that refers to the same document. -/
def access (w : World) (value : ℕ) (accessor : Accessor) : Option (Output × World) := do
  let v ← w.values[value]?
  match ← v.requireValid w with
  | .error e => return (.reading (.error e), w)
  | .ok () =>
    let pointer ← v.nativeValue
    let (native, w) ← w.touch pointer
    match readNative native v.maximumLookupKeyBytes accessor with
    | .error e => return (.reading (.error e), w)
    | .ok (.child index) =>
      return (.value (.ok w.values.length), { w with values := w.values ++ [{ v with
        nativeValue := some ⟨pointer.pool, pointer.path ++ [index]⟩ }] })
    | .ok reading => return (.reading (.ok reading), w)

def step (externals : Externals) (w : World) : Call → Option (Output × World)
  | .arena call => w.arena call
  | .write view => w.write view
  | .parse worker document arena limits reply parser fuel => do
    let (result, w) ← JsonDocuments.parse externals worker document arena limits reply parser fuel w
    return (.parsed result, w)
  | .moveConstruct source => w.moveConstruct source
  | .moveAssign target source => w.moveAssign target source
  | .destroy document => w.destroy document
  | .root document => w.root document
  | .access value accessor => w.access value accessor

/-- The source of an arena does not hand out memory that another arena has. -/
def Supplied (w : World) (arena : ℕ) (reply : Result MutableByteView) : Prop :=
  ∀ block, reply = .ok block → ∀ other a, other ≠ arena → w.arenas.arenas.get? other = some a →
    Apart block.data block.size.toNat a.storage.data a.storage.size.toNat

/-- Objects are used while they are alive. A traversal is given time to end. -/
def Legal (externals : Externals) (w : World) : Call → Prop
  | .arena call => w.arenas.Legal call ∧ ∀ arena worker bytes alignment reply,
      call = .tryAllocate arena worker bytes alignment reply → w.Supplied arena reply
  | .write view => view < w.views.length
  | .parse _ _ arena limits reply parser fuel => (∃ a, w.arenas.arenas.get? arena = some a) ∧
      w.Supplied arena reply ∧ (validateLimits limits = .ok () → ∀ root,
        parser.document = .ok root →
        ∃ result, validate externals root limits fuel = some (.finished result))
  | .moveConstruct source => ∃ d, w.documents.get? source = some d
  | .moveAssign target source =>
    (∃ d, w.documents.get? target = some d) ∧ ∃ d, w.documents.get? source = some d
  | .destroy document => ∃ d, w.documents.get? document = some d
  | .root document => ∃ d, w.documents.get? document = some d
  | .access value _ => value < w.values.length

def system (externals : Externals) : Runs.System World Call Output where
  legal := Legal externals
  step := step externals

end World

end Laghu.JsonDocuments
