import Laghu.DependencyErrors
import Laghu.ObjectTable
import Laghu.Runs
import Laghu.Views

/-!
Compression streams. Three adapters drive a native codec under limits on its input, its
output and the number of its calls. When the output limit is reached a decoder is given
one byte of its own to write to, so that a stream that ends exactly at the limit is
told apart from one that goes on.
-/

namespace Laghu.Codecs

open Contract DependencyErrors Views

/-- `unknown` is a value of the underlying integer that is no enumerator. -/
inductive CodecDirection
  | encode | decode
  | unknown (value : BitVec 8)
  deriving DecidableEq

structure CodecLimits where
  maximumInputBytes : Size
  maximumOutputBytes : Size
  maximumWorkCalls : BitVec 32
  deriving DecidableEq

structure CodecProgress where
  inputConsumed : Size
  outputProduced : Size
  needsInput : Bool
  needsOutput : Bool
  finished : Bool
  deriving DecidableEq

structure CodecAccounting where
  limits : CodecLimits
  inputBytes : Size := 0#64
  outputBytes : Size := 0#64
  workCalls : BitVec 32 := 0#32
  direction : CodecDirection
  finished : Bool := false
  cancelled : Bool := false
  failed : Bool := false
  deriving DecidableEq

def validLimits (limits : CodecLimits) : Bool :=
  limits.maximumInputBytes != 0#64 && limits.maximumOutputBytes != 0#64 &&
    limits.maximumWorkCalls != 0#32

def validDirection (direction : CodecDirection) : Bool :=
  direction == .encode || direction == .decode

/-- Where a native codec writes: the caller's buffer or the byte behind the limit. -/
inductive Destination
  | output (data : ℕ)
  | overflowProbe
  deriving DecidableEq

/-- What passed through a native call. -/
structure Exchange where
  destination : Destination
  consumed : Size
  produced : Size
  deriving DecidableEq

/-- What an adapter returns, the accounting it leaves, and its native call, if any. -/
structure Processed where
  result : Result CodecProgress
  accounting : CodecAccounting
  exchange : Option Exchange := none

namespace CodecAccounting

def preflight (a : CodecAccounting) (inputSize : Size) : Result Unit :=
  if a.cancelled || a.finished || a.failed then
    .error (coreError .invalidState "codec stream is no longer active")
  else if a.workCalls ≥ a.limits.maximumWorkCalls then
    .error (coreError .exhaustion "codec work limit is exhausted")
  else if inputSize > a.limits.maximumInputBytes - a.inputBytes then
    .error (coreError .invalidRange "codec input exceeds the caller limit")
  else .ok ()

def recordFailure (a : CodecAccounting) : CodecAccounting :=
  { a with workCalls := a.workCalls + 1, failed := true }

def boundedOutputSize (a : CodecAccounting) (offered : Size) : Size :=
  if a.limits.maximumOutputBytes - a.outputBytes < offered then
    a.limits.maximumOutputBytes - a.outputBytes
  else offered

def outputCapacityRemains (a : CodecAccounting) : Bool :=
  decide (a.outputBytes < a.limits.maximumOutputBytes)

def record (a : CodecAccounting) (consumed produced : Size) (finished : Bool) : CodecAccounting :=
  { a with
    inputBytes := a.inputBytes + consumed
    outputBytes := a.outputBytes + produced
    workCalls := a.workCalls + 1
    finished := finished }

/-- A failure returned by the native call or detected after it. -/
def fail (a : CodecAccounting) (exchange : Exchange) (e : Error) : Processed :=
  { result := .error e, accounting := a.recordFailure, exchange := some exchange }

/-- A native call that made progress. -/
def advance (a : CodecAccounting) (exchange : Exchange) (progress : CodecProgress) : Processed :=
  { result := .ok progress
    accounting := a.record progress.inputConsumed progress.outputProduced progress.finished
    exchange := some exchange }

def outputLimitError : Error := coreError .exhaustion "codec output limit is exhausted"

/-- The checks all adapters begin with; `native` goes on with the bounded output size. -/
def opened (a : CodecAccounting) (input output : View) (native : Size → Processed) : Processed :=
  match a.preflight input.size with
  | .error e => { result := .error e, accounting := a }
  | .ok () =>
    if output.size = 0#64 ∧ a.outputCapacityRemains then
      { result := .ok ⟨0#64, 0#64, false, true, false⟩, accounting := a.record 0#64 0#64 false }
    else if a.boundedOutputSize output.size = 0#64 ∧ a.direction = .encode then
      { result := .error outputLimitError, accounting := a }
    else native (a.boundedOutputSize output.size)

end CodecAccounting

/-- The fields of a `zng_stream` and the function called on it. -/
structure ZlibCall where
  nextIn : ℕ
  availIn : BitVec 32
  nextOut : Destination
  availOut : BitVec 32
  deflate : Bool
  finish : Bool

structure ZlibReply where
  availIn : BitVec 32
  availOut : BitVec 32
  result : Int

/-- A zlib-ng that stays inside the buffers it is given. -/
structure ZlibNg where
  call : ZlibCall → ZlibReply
  input_le : ∀ c, (call c).availIn ≤ c.availIn
  output_le : ∀ c, (call c).availOut ≤ c.availOut

def zOk : Int := 0

def zStreamEnd : Int := 1

def zDataError : Int := -3

def zMemError : Int := -4

def zBufError : Int := -5

def uint32Max : Size := 4294967295#64

def zlibError (operation : DependencyOperation) (code : Int) : Error :=
  normalizeDependencyError .zlibNg operation
    (if code = zMemError then .exhaustion
      else if code = zDataError then .corruptData else .invalidInput) code

def zlibProcess (library : ZlibNg) (a : CodecAccounting) (input output : View) (finishing : Bool) :
    Processed :=
  a.opened input output fun outputSize =>
    let offeredInput := if uint32Max < input.size then uint32Max else input.size
    let probingOutputLimit := outputSize == 0#64
    let offeredOutput := if probingOutputLimit then 1#64
      else if uint32Max < outputSize then uint32Max else outputSize
    let nextOut := if probingOutputLimit then .overflowProbe else .output output.data
    let reply := library.call
      { nextIn := input.data
        availIn := offeredInput.setWidth 32
        nextOut := nextOut
        availOut := offeredOutput.setWidth 32
        deflate := a.direction == .encode
        finish := a.direction == .encode && finishing }
    let consumed := offeredInput - reply.availIn.setWidth 64
    let produced := offeredOutput - reply.availOut.setWidth 64
    let finished := reply.result == zStreamEnd
    let exchange := { destination := nextOut, consumed := consumed, produced := produced }
    if probingOutputLimit && produced != 0#64 then
      a.fail exchange CodecAccounting.outputLimitError
    else if finished && consumed != input.size then
      a.fail exchange (coreError .corruptData "compressed stream has trailing data")
    else if reply.result != zOk && reply.result != zBufError && !finished then
      a.fail exchange (zlibError .codecProcess reply.result)
    else if finishing && a.direction == .decode && !finished && consumed == input.size &&
        reply.availOut != 0#32 then
      a.fail exchange (coreError .corruptData "compressed stream is truncated")
    else
      a.advance exchange
        { inputConsumed := consumed
          outputProduced := if probingOutputLimit then 0#64 else produced
          needsInput := !finished && consumed == input.size
          needsOutput := !finished && reply.availOut == 0#32
          finished := finished }

structure BrotliCall where
  nextInput : ℕ
  availableInput : Size
  nextOutput : ℕ
  availableOutput : Size

/-- The reply of `BrotliEncoderCompressStream`, and what the encoder says after it. -/
structure BrotliEncoderReply where
  availableInput : Size
  availableOutput : Size
  success : Bool
  isFinished : Bool
  hasMoreOutput : Bool

inductive BrotliDecoderResult
  | error | success | needsMoreInput | needsMoreOutput
  deriving DecidableEq

structure BrotliDecoderReply where
  availableInput : Size
  availableOutput : Size
  result : BrotliDecoderResult
  errorCode : Int

/-- A brotli that stays inside the buffers it is given. -/
structure Brotli where
  compressStream : BrotliCall → Bool → BrotliEncoderReply
  decompressStream : BrotliCall → BrotliDecoderReply
  compress_input_le : ∀ c finish, (compressStream c finish).availableInput ≤ c.availableInput
  compress_output_le : ∀ c finish, (compressStream c finish).availableOutput ≤ c.availableOutput
  decompress_input_le : ∀ c, (decompressStream c).availableInput ≤ c.availableInput
  decompress_output_le : ∀ c, (decompressStream c).availableOutput ≤ c.availableOutput

def brotliError (status : DependencyStatus) (operation : DependencyOperation) (code : Int) :
    Error :=
  normalizeDependencyError .brotli operation status code

/-- The six error codes for a failed allocation. -/
def brotliAllocationError (code : Int) : Bool :=
  code == -21 || code == -22 || code == -25 || code == -26 || code == -27 || code == -30

def brotliEncode (library : Brotli) (a : CodecAccounting) (input output : View)
    (finishing : Bool) (outputSize : Size) : Processed :=
  let reply := library.compressStream
    { nextInput := input.data
      availableInput := input.size
      nextOutput := output.data
      availableOutput := outputSize } finishing
  let consumed := input.size - reply.availableInput
  let produced := outputSize - reply.availableOutput
  let exchange := { destination := .output output.data, consumed := consumed, produced := produced }
  if !reply.success then
    a.fail exchange (brotliError .exhaustion .codecProcess 0)
  else
    let finished := reply.isFinished
    let needsOutput := !finished && (reply.availableOutput == 0#64 || reply.hasMoreOutput)
    a.advance exchange
      { inputConsumed := consumed
        outputProduced := produced
        needsInput := !finished && !finishing && reply.availableInput == 0#64 && !needsOutput
        needsOutput := needsOutput
        finished := finished }

def brotliDecode (library : Brotli) (a : CodecAccounting) (input output : View)
    (finishing : Bool) (outputSize : Size) : Processed :=
  let reply := library.decompressStream
    { nextInput := input.data
      availableInput := input.size
      nextOutput := output.data
      availableOutput := outputSize }
  let consumed := input.size - reply.availableInput
  let produced := outputSize - reply.availableOutput
  let exchange := { destination := .output output.data, consumed := consumed, produced := produced }
  let finished := reply.result == .success
  let needsInput := reply.result == .needsMoreInput
  let needsOutput := reply.result == .needsMoreOutput
  if reply.result = .error then
    a.fail exchange (brotliError
      (if brotliAllocationError reply.errorCode then .exhaustion else .corruptData)
      .codecProcess reply.errorCode)
  else if outputSize == 0#64 && needsOutput then
    a.fail exchange CodecAccounting.outputLimitError
  else if finished && reply.availableInput != 0#64 then
    a.fail exchange (coreError .corruptData "compressed stream has trailing data")
  else if finishing && needsInput then
    a.fail exchange (coreError .corruptData "compressed stream is truncated")
  else
    a.advance exchange
      { inputConsumed := consumed
        outputProduced := produced
        needsInput := needsInput
        needsOutput := needsOutput
        finished := finished }

def brotliProcess (library : Brotli) (a : CodecAccounting) (input output : View)
    (finishing : Bool) : Processed :=
  a.opened input output fun outputSize =>
    if a.direction = .encode then brotliEncode library a input output finishing outputSize
    else brotliDecode library a input output finishing outputSize

/-- A `ZSTD_inBuffer` and a `ZSTD_outBuffer`, both at position zero. -/
structure ZstdCall where
  source : ℕ
  sourceSize : Size
  destination : Destination
  destinationSize : Size

/-- The positions after a call; `result` is an error for `ZSTD_isError`. -/
structure ZstdReply where
  sourcePos : Size
  destinationPos : Size
  result : Except Int Size

/-- A zstd that stays inside the buffers it is given. -/
structure Zstd where
  compressStream2 : ZstdCall → Bool → ZstdReply
  decompressStream : ZstdCall → ZstdReply
  compress_input_le : ∀ c finish, (compressStream2 c finish).sourcePos ≤ c.sourceSize
  compress_output_le : ∀ c finish, (compressStream2 c finish).destinationPos ≤ c.destinationSize
  decompress_input_le : ∀ c, (decompressStream c).sourcePos ≤ c.sourceSize
  decompress_output_le : ∀ c, (decompressStream c).destinationPos ≤ c.destinationSize

def zstdErrorMemoryAllocation : Int := 64

def zstdError (operation : DependencyOperation) (code : Int) : Error :=
  normalizeDependencyError .zstd operation
    (if code = zstdErrorMemoryAllocation then .exhaustion else .corruptData) code

def zstdAllocationError (operation : DependencyOperation) : Error :=
  normalizeDependencyError .zstd operation .exhaustion zstdErrorMemoryAllocation

def zstdEncode (library : Zstd) (a : CodecAccounting) (call : ZstdCall) (finishing : Bool)
    (probingOutputLimit : Bool) : Processed :=
  let reply := library.compressStream2 call finishing
  let exchange :=
    { destination := call.destination, consumed := reply.sourcePos,
      produced := reply.destinationPos }
  match reply.result with
  | .error code => a.fail exchange (zstdError .codecProcess code)
  | .ok remaining =>
    let finished := finishing && remaining == 0#64
    let needsOutput := !finished && reply.destinationPos == call.destinationSize
    a.advance exchange
      { inputConsumed := reply.sourcePos
        outputProduced := if probingOutputLimit then 0#64 else reply.destinationPos
        needsInput := !finished && !finishing && reply.sourcePos == call.sourceSize && !needsOutput
        needsOutput := needsOutput
        finished := finished }

def zstdDecode (library : Zstd) (a : CodecAccounting) (call : ZstdCall) (finishing : Bool)
    (probingOutputLimit : Bool) : Processed :=
  let reply := library.decompressStream call
  let exchange :=
    { destination := call.destination, consumed := reply.sourcePos,
      produced := reply.destinationPos }
  match reply.result with
  | .error code => a.fail exchange (zstdError .codecProcess code)
  | .ok remaining =>
    let finished := remaining == 0#64
    let needsOutput := !finished && reply.destinationPos == call.destinationSize
    let needsInput := !finished && reply.sourcePos == call.sourceSize && !needsOutput
    if probingOutputLimit && reply.destinationPos != 0#64 then
      a.fail exchange CodecAccounting.outputLimitError
    else if finished && reply.sourcePos != call.sourceSize then
      a.fail exchange (coreError .corruptData "compressed stream has trailing data")
    else if finishing && !finished && needsInput then
      a.fail exchange (coreError .corruptData "compressed stream is truncated")
    else
      a.advance exchange
        { inputConsumed := reply.sourcePos
          outputProduced := if probingOutputLimit then 0#64 else reply.destinationPos
          needsInput := needsInput
          needsOutput := needsOutput
          finished := finished }

def zstdProcess (library : Zstd) (a : CodecAccounting) (input output : View) (finishing : Bool) :
    Processed :=
  a.opened input output fun outputSize =>
    let probingOutputLimit := outputSize == 0#64
    let call : ZstdCall :=
      { source := input.data
        sourceSize := input.size
        destination := if probingOutputLimit then .overflowProbe else .output output.data
        destinationSize := if probingOutputLimit then 1#64 else outputSize }
    if a.direction = .encode then zstdEncode library a call finishing probingOutputLimit
    else zstdDecode library a call finishing probingOutputLimit

end Laghu.Codecs
