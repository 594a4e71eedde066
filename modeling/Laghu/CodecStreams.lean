import Laghu.Codecs

/-!
Handles on compression streams. A handle is a stream in use or an empty one; moving
passes the stream on, and letting go of a handle destroys the stream it holds. A handle
is good only while its arena is in the generation it was created in.
-/

namespace Laghu.Codecs

open Contract Views
open ObjectTable (Table)

/-- Which table of operations a stream has. -/
inductive Codec
  | zlibNg | brotli | zstd
  deriving DecidableEq

/-- The native libraries during one call. -/
structure Libraries where
  zlibNg : ZlibNg
  brotli : Brotli
  zstd : Zstd

def Codec.process (libraries : Libraries) : Codec → CodecAccounting → View → View → Bool → Processed
  | .zlibNg => zlibProcess libraries.zlibNg
  | .brotli => brotliProcess libraries.brotli
  | .zstd => zstdProcess libraries.zstd

structure CodecState where
  codec : Codec
  accounting : CodecAccounting
  deriving DecidableEq

/-- What all factories do. `pin` is the arena's answer, `storage` says whether the caller
gave room for the state, `native` is what became of the native codec. -/
def createCodec (codec : Codec) (direction : CodecDirection) (storage : Bool)
    (limits : CodecLimits) (pin : Result Unit) (native : Result Unit) : Result CodecState :=
  if !validDirection direction then .error (coreError .invalidInput "codec direction is invalid")
  else if !validLimits limits then
    .error (coreError .invalidInput "codec limits must be positive")
  else do
    pin
    require (storage = true) (coreError .invalidInput "codec state storage is unavailable")
    native
    return { codec := codec, accounting := { limits := limits, direction := direction } }

/-- What the native library answered when a codec was set up. -/
inductive Setup
  | zlibNg (result : Int)
  | brotli (created parameterSet : Bool)
  | zstd (created : Bool) (parameter : Except Int Unit)

def createZlibNgCodec (direction : CodecDirection) (storage : Bool) (limits : CodecLimits)
    (pin : Result Unit) (result : Int) : Result CodecState :=
  createCodec .zlibNg direction storage limits pin
    (require (result = zOk) (zlibError .codecInitialize result))

/-- Only an encoder has a parameter to set. -/
def createBrotliCodec (direction : CodecDirection) (storage : Bool) (limits : CodecLimits)
    (pin : Result Unit) (created parameterSet : Bool) : Result CodecState :=
  createCodec .brotli direction storage limits pin
    (require (created = true ∧ (direction = .encode → parameterSet = true))
      (brotliError .exhaustion .codecInitialize 0))

def createZstdCodec (direction : CodecDirection) (storage : Bool) (limits : CodecLimits)
    (pin : Result Unit) (created : Bool) (parameter : Except Int Unit) : Result CodecState :=
  createCodec .zstd direction storage limits pin
    (if !created then .error (zstdAllocationError .codecInitialize)
      else match parameter with
        | .error code => .error (zstdError .codecInitialize code)
        | .ok () => .ok ())

def Setup.create (direction : CodecDirection) (storage : Bool) (limits : CodecLimits)
    (pin : Result Unit) : Setup → Result CodecState
  | .zlibNg result => createZlibNgCodec direction storage limits pin result
  | .brotli created parameterSet =>
    createBrotliCodec direction storage limits pin created parameterSet
  | .zstd created parameter => createZstdCodec direction storage limits pin created parameter

/-- `state_`, `arena_` and `generation_`, which are set and cleared together. -/
structure Target where
  state : ℕ
  arena : ℕ
  generation : BitVec 64
  deriving DecidableEq

structure CodecStream where
  target : Option Target := none
  finalizing : Bool := false
  deriving DecidableEq

/-- All codec states and handles of a program, and the generations of its arenas. -/
structure World where
  states : Table CodecState := .empty
  streams : Table CodecStream := .empty
  generations : ℕ → BitVec 64

/-- `reset` is a reset of an arena. -/
inductive Call
  | create (setup : Setup) (direction : CodecDirection) (storage : Bool) (arena : ℕ)
      (limits : CodecLimits) (pin : Result Unit)
  | process (stream : ℕ) (input output : View) (libraries : Libraries)
  | finish (stream : ℕ) (output : View) (libraries : Libraries)
  | cancel (stream : ℕ)
  | moveConstruct (source : ℕ)
  | moveAssign (target source : ℕ)
  | destroy (stream : ℕ)
  | reset (arena : ℕ)

/-- A result comes with the stream behind the handle and with the native call. -/
inductive Output
  | created (result : Result Unit)
  | progress (stream : Option ℕ) (result : Result CodecProgress) (exchange : Option Exchange)
  | cancelled (stream : Option ℕ)
  | done

namespace CodecStream

def stream (x : CodecStream) : Option ℕ := x.target.map Target.state

end CodecStream

namespace World

def requireValid (w : World) (x : CodecStream) : Result Target :=
  match x.target with
  | none => .error (coreError .invalidState "codec stream is inactive or its arena was reset")
  | some t =>
    if w.generations t.arena ≠ t.generation then
      .error (coreError .invalidState "codec stream is inactive or its arena was reset")
    else .ok t

/-- The call through the table of operations. -/
def dispatch (w : World) (t : Target) (input output : View) (finishing : Bool)
    (libraries : Libraries) : Option (Output × World) := do
  let state ← w.states.get? t.state
  let processed := state.codec.process libraries state.accounting input output finishing
  return (.progress (some t.state) processed.result processed.exchange,
    { w with states := w.states.set t.state { state with accounting := processed.accounting } })

def process (w : World) (stream : ℕ) (input output : View) (libraries : Libraries) :
    Option (Output × World) := do
  let x ← w.streams.get? stream
  match w.requireValid x with
  | .error e => return (.progress x.stream (.error e) none, w)
  | .ok t =>
    if x.finalizing then
      return (.progress x.stream (.error (coreError .invalidState
        "codec stream finalization has already started")) none, w)
    else w.dispatch t input output false libraries

def finish (w : World) (stream : ℕ) (output : View) (libraries : Libraries) :
    Option (Output × World) := do
  let x ← w.streams.get? stream
  match w.requireValid x with
  | .error e => return (.progress x.stream (.error e) none, w)
  | .ok t =>
    dispatch { w with streams := w.streams.set stream { x with finalizing := true } } t .empty
      output true libraries

def cancel (w : World) (stream : ℕ) : Option (Output × World) := do
  let x ← w.streams.get? stream
  match w.requireValid x with
  | .error _ => return (.cancelled x.stream, w)
  | .ok t =>
    let state ← w.states.get? t.state
    let accounting := { state.accounting with cancelled := true }
    return (.cancelled x.stream,
      { w with states := w.states.set t.state { state with accounting := accounting } })

/-- `release` without clearing the handle. -/
def release (w : World) (x : CodecStream) : Option World :=
  match w.requireValid x with
  | .error _ => some w
  | .ok t => do
    let _ ← w.states.get? t.state
    return { w with states := w.states.erase t.state }

def step (w : World) : Call → Option (Output × World)
  | .create setup direction storage arena limits pin =>
    match setup.create direction storage limits pin with
    | .error e => some (.created (.error e), w)
    | .ok state => some (.created (.ok ()), { w with
        states := w.states.push state
        streams := w.streams.push
          { target := some ⟨w.states.size, arena, w.generations arena⟩ } })
  | .process stream input output libraries => w.process stream input output libraries
  | .finish stream output libraries => w.finish stream output libraries
  | .cancel stream => w.cancel stream
  | .moveConstruct source => do
    let x ← w.streams.get? source
    return (.done, { w with streams := (w.streams.set source {}).push x })
  | .moveAssign target source =>
    if target = source then some (.done, w)
    else do
      let old ← w.streams.get? target
      let x ← w.streams.get? source
      let w ← w.release old
      return (.done, { w with streams := (w.streams.set target x).set source {} })
  | .destroy stream => do
    let x ← w.streams.get? stream
    let w ← w.release x
    return (.done, { w with streams := w.streams.erase stream })
  | .reset arena =>
    if w.generations arena = sizeMax then some (.done, w)
    else some (.done, { w with
      generations := fun other =>
        if other = arena then w.generations arena + 1#64 else w.generations other })

/-- Only handles that exist are used. -/
def Legal (w : World) : Call → Prop
  | .create _ _ _ _ _ _ => True
  | .process stream _ _ _ => ∃ x, w.streams.get? stream = some x
  | .finish stream _ _ => ∃ x, w.streams.get? stream = some x
  | .cancel stream => ∃ x, w.streams.get? stream = some x
  | .moveConstruct source => ∃ x, w.streams.get? source = some x
  | .moveAssign target source =>
    (∃ x, w.streams.get? target = some x) ∧ ∃ x, w.streams.get? source = some x
  | .destroy stream => ∃ x, w.streams.get? stream = some x
  | .reset _ => True

def system : Runs.System World Call Output where
  legal := Legal
  step := step

/-- No stream has been created yet. -/
def Empty (w : World) : Prop := w.states = .empty ∧ w.streams = .empty

end World

end Laghu.Codecs
