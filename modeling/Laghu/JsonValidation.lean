import Laghu.BigEndian
import Laghu.Contract

/-!
Validation of a parsed JSON document against the caller's limits. The traversal keeps
its own stack of frames in caller storage, and every object sorts its keys in one
shared scratch array. A parsed document is a finite tree: an iterator is the list of
children it has still to return, and `std::sort` is the parameter `sort`. A read or
write outside the caller's storage is `none`.
-/

namespace Laghu.WhileLoops

variable {σ ρ : Type}

inductive Progress (σ ρ : Type)
  | running (state : σ)
  | finished (result : ρ)

def run (step : σ → Option (Progress σ ρ)) : ℕ → σ → Option (Progress σ ρ)
  | 0, s => some (.running s)
  | n + 1, s =>
    match step s with
    | none => none
    | some (.finished r) => some (.finished r)
    | some (.running s') => run step n s'

inductive Ends (step : σ → Option (Progress σ ρ)) (P : ρ → Prop) : σ → Prop
  | done {s : σ} {r : ρ} (h : step s = some (.finished r)) (hr : P r) : Ends step P s
  | next {s s' : σ} (h : step s = some (.running s')) (rest : Ends step P s') : Ends step P s

/-- A loop that ends has one result, which every large enough number of iterations
returns, and no number of iterations gets it stuck. -/
theorem Ends.run {step : σ → Option (Progress σ ρ)} {P : ρ → Prop} {s : σ}
    (h : Ends step P s) : ∃ r, P r ∧ (∃ n, ∀ m, n ≤ m → run step m s = some (.finished r)) ∧
      ∀ m, run step m s ≠ none := by
  induction h with
  | done hs hr =>
    refine ⟨_, hr, ⟨1, ?_⟩, ?_⟩
    · intro m hm
      obtain ⟨k, rfl⟩ : ∃ k, m = k + 1 := ⟨m - 1, by omega⟩
      simp only [WhileLoops.run, hs]
    intro m
    cases m with
    | zero => exact Option.some_ne_none _
    | succ k => simp only [WhileLoops.run, hs, ne_eq, reduceCtorEq, not_false_eq_true]
  | next hs _ ih =>
    obtain ⟨r, hr, ⟨n, hn⟩, hsafe⟩ := ih
    refine ⟨r, hr, ⟨n + 1, ?_⟩, ?_⟩
    · intro m hm
      obtain ⟨k, rfl⟩ : ∃ k, m = k + 1 := ⟨m - 1, by omega⟩
      simp only [WhileLoops.run, hs]
      exact hn k (by omega)
    intro m
    cases m with
    | zero => exact Option.some_ne_none _
    | succ k =>
      simp only [WhileLoops.run, hs]
      exact hsafe k

end Laghu.WhileLoops

namespace Laghu.JsonValidation

open Contract WhileLoops
open BigEndian (Byte)

/-- The characters of a key or a string, NUL bytes included. -/
abbrev ObjectKey := List Byte

inductive Json
  | null
  | boolean (value : Bool)
  | number
  | string (characters : List Byte)
  | array (items : List Json)
  | object (members : List (ObjectKey × Json))

namespace Json

-- Each member of an object is a key and a value for `yyjson_doc_get_val_count`.
mutual
def valueCount : Json → ℕ
  | .array items => 1 + itemCount items
  | .object members => 1 + memberCount members
  | _ => 1

def itemCount : List Json → ℕ
  | [] => 0
  | item :: rest => item.valueCount + itemCount rest

def memberCount : List (ObjectKey × Json) → ℕ
  | [] => 0
  | (_, value) :: rest => 1 + value.valueCount + memberCount rest
end

end Json

structure JsonDocumentLimits where
  maximumDocumentBytes : Size
  maximumNesting : Size
  maximumStringBytes : Size
  maximumAggregateValues : Size
  maximumObjectMembers : Size

/-- A pointer, a depth, a state and the two iterators, of three and four words. -/
def sizeofTraversalFrame : Size := 80#64

def sizeofObjectKey : Size := 16#64

def validateLimits (limits : JsonDocumentLimits) : Result Unit :=
  if limits.maximumDocumentBytes = 0#64 ∨ limits.maximumNesting = 0#64 ∨
      limits.maximumStringBytes = 0#64 ∨ limits.maximumAggregateValues = 0#64 then
    .error (coreError .invalidInput
      "JSON document, nesting, string, and aggregate limits must be positive")
  else if limits.maximumNesting > sizeMax / sizeofTraversalFrame then
    .error (coreError .overflow "JSON nesting limit overflows traversal storage")
  else if limits.maximumObjectMembers > sizeMax / sizeofObjectKey then
    .error (coreError .overflow "JSON member limit overflows duplicate-key storage")
  else .ok ()

/-- `std::memcmp` over as many bytes as the shorter list has. -/
def memcmp : List Byte → List Byte → Ordering
  | a :: left, b :: right =>
    if a < b then .lt else if b < a then .gt else memcmp left right
  | _, _ => .eq

def keyLess (left right : ObjectKey) : Bool :=
  let commonSize := if left.length < right.length then left.length else right.length
  let comparison :=
    if commonSize = 0 then .eq else memcmp (left.take commonSize) (right.take commonSize)
  comparison == .lt || (comparison == .eq && decide (left.length < right.length))

def equalKey (left right : ObjectKey) : Bool :=
  left.length == right.length && (left.length == 0 || memcmp left right == .eq)

/-- The loop that copies the keys of an object to the scratch array. -/
def copyKeys (limits : JsonDocumentLimits) (memberCount : ℕ) :
    List (ObjectKey × Json) → ℕ → List ObjectKey → Option (Result (ℕ × List ObjectKey))
  | [], keyCount, keyScratch => some (.ok (keyCount, keyScratch))
  | (key, _) :: rest, keyCount, keyScratch =>
    if key.length > limits.maximumStringBytes.toNat then
      some (.error (coreError .invalidRange "JSON object key exceeds the caller string limit"))
    else if keyCount = memberCount then
      some (.error (coreError .invalidState "yyjson object member iteration is inconsistent"))
    else if keyCount < keyScratch.length then
      copyKeys limits memberCount rest (keyCount + 1) (keyScratch.set keyCount key)
    else none

/-- The loop that compares each key with the one before it. -/
def adjacentEqual : List ObjectKey → Bool
  | previous :: key :: rest => equalKey previous key || adjacentEqual (key :: rest)
  | _ => false

section

variable (sort : List ObjectKey → List ObjectKey)

/-- Returns the scratch array as the call leaves it. -/
def validateObject (members : List (ObjectKey × Json)) (keyScratch : List ObjectKey)
    (keyCapacity : Size) (limits : JsonDocumentLimits) : Option (Result (List ObjectKey)) :=
  let memberCount := members.length
  if memberCount > limits.maximumObjectMembers.toNat then
    some (.error (coreError .invalidRange "JSON object exceeds the caller member limit"))
  else if memberCount > keyCapacity.toNat then
    some (.error (coreError .invalidState "JSON duplicate-key storage is unavailable"))
  else
    match copyKeys limits memberCount members 0 keyScratch with
    | none => none
    | some (.error e) => some (.error e)
    | some (.ok (keyCount, copied)) =>
      if keyCount ≠ memberCount then
        some (.error (coreError .invalidState "yyjson object member iteration is incomplete"))
      else
        let sorted := sort (copied.take keyCount)
        if adjacentEqual sorted then
          some (.error (coreError .invalidInput "JSON object contains duplicate members"))
        else some (.ok (sorted ++ copied.drop keyCount))

inductive TraversalState
  | enter | array | object
  deriving DecidableEq

structure TraversalFrame where
  value : Json
  depth : ℕ
  state : TraversalState
  arrayIterator : List Json := []
  objectIterator : List (ObjectKey × Json) := []

/-- The locals of `validate_document` and the storage they point to. -/
structure Traversal where
  frames : List TraversalFrame
  frameCount : ℕ
  keyScratch : List ObjectKey

abbrev Iteration := Option (Progress Traversal (Result Unit))

def leave (e : Error) : Iteration := some (.finished (.error e))

def nestingError : Error :=
  coreError .invalidRange "JSON document exceeds the caller nesting limit"

def stringError : Error :=
  coreError .invalidRange "JSON string exceeds the caller string limit"

/-- `--frame_count`. -/
def pop (t : Traversal) : Iteration := some (.running { t with frameCount := t.frameCount - 1 })

/-- `frame`, a reference to the frame on top, becomes `frame`. -/
def update (t : Traversal) (frame : TraversalFrame) : Traversal :=
  { t with frames := t.frames.set (t.frameCount - 1) frame }

/-- The end of an iteration for the next child of a frame at `depth`. -/
def push (frameCapacity : Size) (t : Traversal) (child : Json) (depth : ℕ) : Iteration :=
  if t.frameCount = frameCapacity.toNat then leave nestingError
  else if t.frameCount < t.frames.length then
    some (.running { t with
      frames := t.frames.set t.frameCount ⟨child, depth + 1, .enter, [], []⟩
      frameCount := t.frameCount + 1 })
  else none

/-- The body of the loop for a frame in state `enter`. -/
def enter (keyCapacity : Size) (limits : JsonDocumentLimits) (t : Traversal)
    (frame : TraversalFrame) : Iteration :=
  match frame.value with
  | .string characters =>
    if characters.length > limits.maximumStringBytes.toNat then leave stringError else pop t
  | .array items =>
    some (.running (update t { frame with state := .array, arrayIterator := items }))
  | .object members =>
    match validateObject sort members t.keyScratch keyCapacity limits with
    | none => none
    | some (.error e) => leave e
    | some (.ok keyScratch) =>
      some (.running (update { t with keyScratch := keyScratch }
        { frame with state := .object, objectIterator := members }))
  | _ => pop t

/-- The body of the loop for a frame that enumerates its children. -/
def descend (frameCapacity : Size) (t : Traversal) (frame : TraversalFrame) : Iteration :=
  match frame.state with
  | .array =>
    match frame.arrayIterator with
    | [] => pop t
    | child :: rest =>
      push frameCapacity (update t { frame with arrayIterator := rest }) child frame.depth
  | _ =>
    match frame.objectIterator with
    | [] => pop t
    | (_, child) :: rest =>
      push frameCapacity (update t { frame with objectIterator := rest }) child frame.depth

def iterate (frameCapacity keyCapacity : Size) (limits : JsonDocumentLimits) (t : Traversal) :
    Iteration :=
  if t.frameCount = 0 then some (.finished (.ok ()))
  else
    match t.frames[t.frameCount - 1]? with
    | none => none
    | some frame =>
      if frame.depth > limits.maximumNesting.toNat then leave nestingError
      else if frame.state = .enter then enter sort keyCapacity limits t frame
      else descend frameCapacity t frame

/-- Storage that is not null; the traversal stops after `fuel` iterations. -/
def validateDocument (root : Json) (frames : List TraversalFrame) (frameCapacity : Size)
    (keyScratch : List ObjectKey) (keyCapacity : Size) (limits : JsonDocumentLimits)
    (fuel : ℕ) : Iteration :=
  if root.valueCount > limits.maximumAggregateValues.toNat then
    leave (coreError .invalidRange "JSON document exceeds the caller aggregate limit")
  else if frameCapacity = 0#64 then
    leave (coreError .invalidState "yyjson returned an invalid document")
  else if 0 < frames.length then
    run (iterate sort frameCapacity keyCapacity limits) fuel
      ⟨frames.set 0 ⟨root, 1, .enter, [], []⟩, 1, keyScratch⟩
  else none

end

end Laghu.JsonValidation
