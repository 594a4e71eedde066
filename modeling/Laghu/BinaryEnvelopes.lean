import Laghu.ByteStrings

/-!
The binary envelope: a 16-byte header with magic, version, kind, payload length
and checksum, followed by the payload. The checksum covers the first twelve
bytes of the header and the payload.
-/

namespace Laghu.BinaryEnvelopes

open Contract CheckedArithmetic BigEndian ByteStrings ByteString

def binaryEnvelopeHeaderSize : Size := 16#64

def binaryEnvelopeVersion : BitVec 16 := 1#16

/-- Only the default constructor makes kind 0, and then without a payload. -/
structure BinaryEnvelope where
  kind : BitVec 16 := 0#16
  payload : ByteString := {}
  blank : kind = 0#16 → payload.bytes = [] := by decide
  deriving DecidableEq

def zeroKindError : Error := coreError .invalidInput "binary envelope kind must be nonzero"

def BinaryEnvelope.fromParts (kind : BitVec 16) (payload : ByteString) : Result BinaryEnvelope :=
  if h : kind = 0#16 then .error zeroKindError
  else .ok { kind := kind, payload := payload, blank := fun hzero => absurd hzero h }

/-- The body of the inner loop of `crc32c_extend`. -/
def crc32cBit (state : BitVec 32) : BitVec 32 :=
  let mask := 0#32 - (state &&& 1#32)
  (state >>> 1) ^^^ (0x82F63B78#32 &&& mask)

def crc32cByte (state : BitVec 32) (byte : Byte) : BitVec 32 :=
  Nat.iterate crc32cBit 8 (state ^^^ byte.setWidth 32)

def crc32cExtend (state : BitVec 32) (bytes : List Byte) : BitVec 32 := bytes.foldl crc32cByte state

/-- The form of `crc32c_castagnoli` for two views. -/
def crc32cCastagnoli (first second : List Byte) : BitVec 32 :=
  crc32cExtend (crc32cExtend 0xFFFFFFFF#32 first) second ^^^ 0xFFFFFFFF#32

def binaryEnvelopeEncodedSize (payloadSize : Size) : Result Size :=
  if payloadSize > 0xFFFFFFFF#64 then
    .error (coreError .overflow "binary envelope payload exceeds the 32-bit wire length")
  else checkedAdd binaryEnvelopeHeaderSize payloadSize

/-- `LGHU`. -/
def magic : List Byte := [0x4C#8, 0x47#8, 0x48#8, 0x55#8]

/-- The header array before the checksum is written. -/
def headerFields (envelope : BinaryEnvelope) : List Byte :=
  let header := magic ++ List.replicate 12 0#8
  let header := store header 4 (encodeBigEndian binaryEnvelopeVersion)
  let header := store header 6 (encodeBigEndian envelope.kind)
  store header 8 (encodeBigEndian (envelope.payload.size.setWidth 32))

def encodeHeader (envelope : BinaryEnvelope) : List Byte :=
  let header := headerFields envelope
  let checksum := crc32cCastagnoli (header.take 12) envelope.payload.bytes
  store header 12 (encodeBigEndian checksum)

/-- The checks of `encode_binary_envelope`, which come before the first write. -/
def encodeChecks (envelope : BinaryEnvelope) (outputSize : Size) : Result Size := do
  require (envelope.kind ≠ 0#16) zeroKindError
  let encodedSize ← binaryEnvelopeEncodedSize envelope.payload.size
  require (¬ outputSize < encodedSize)
    (coreError .invalidRange "binary envelope output is too small")
  return encodedSize

def encodeBinaryEnvelope (envelope : BinaryEnvelope) (output : ByteString) :
    Result Size × ByteString :=
  match encodeChecks envelope output.size with
  | .error e => (.error e, output)
  | .ok encodedSize =>
    (.ok encodedSize, (output.write 0 (encodeHeader envelope)).write 16 envelope.payload.bytes)

structure Fields where
  version : BitVec 16
  kind : BitVec 16
  payloadLength : BitVec 32
  checksum : BitVec 32

/-- The part of `decode_binary_envelope` that reads the header fields. -/
def readFields (header : ByteString) : Result Fields := do
  let malformedHeader := coreError .corruptData "binary envelope header is malformed"
  let malformedFields := coreError .corruptData "binary envelope fields are malformed"
  let encodedVersion ← orError (header.slice 4#64 2#64) malformedHeader
  let encodedKind ← orError (header.slice 6#64 2#64) malformedHeader
  let encodedLength ← orError (header.slice 8#64 4#64) malformedHeader
  let encodedChecksum ← orError (header.slice 12#64 4#64) malformedHeader
  let version ← orError (decodeBigEndian 16 encodedVersion) malformedFields
  let kind ← orError (decodeBigEndian 16 encodedKind) malformedFields
  let payloadLength ← orError (decodeBigEndian 32 encodedLength) malformedFields
  let checksum ← orError (decodeBigEndian 32 encodedChecksum) malformedFields
  return { version, kind, payloadLength, checksum }

/-- The part of `decode_binary_envelope` that finds and verifies the payload. -/
def readPayload (input : ByteString) (maximumPayloadSize : Size) (fields : Fields) :
    Result ByteString := do
  let badRange := coreError .corruptData "binary envelope payload range is invalid"
  let payloadSize : Size ← checkedNarrow fields.payloadLength
  require (¬ payloadSize > maximumPayloadSize)
    (coreError .invalidRange "binary envelope payload exceeds the caller maximum")
  let expectedSize ← binaryEnvelopeEncodedSize payloadSize
  require (¬ input.size < expectedSize)
    (coreError .corruptData "binary envelope payload is truncated")
  require (¬ input.size > expectedSize)
    (coreError .corruptData "binary envelope has trailing bytes")
  let payload ← orError (input.slice binaryEnvelopeHeaderSize payloadSize) badRange
  let checksumHeader ← orError (input.slice 0#64 12#64) badRange
  require (crc32cCastagnoli checksumHeader.bytes payload.bytes = fields.checksum)
    (coreError .checksum "binary envelope checksum does not match")
  return payload

def decodeEnvelope (input : ByteString) (maximumPayloadSize : Size) : Result BinaryEnvelope := do
  require (¬ input.size < binaryEnvelopeHeaderSize)
    (coreError .corruptData "binary envelope is shorter than its header")
  let header ← input.slice 0#64 binaryEnvelopeHeaderSize
  require (header.bytes.take 4 = magic)
    (coreError .corruptData "binary envelope magic is invalid")
  let fields ← readFields header
  require (fields.version = binaryEnvelopeVersion)
    (coreError .unsupportedVersion "binary envelope version is unsupported")
  require (fields.kind ≠ 0#16) zeroKindError
  let payload ← readPayload input maximumPayloadSize fields
  BinaryEnvelope.fromParts fields.kind payload

/-- The output is assigned once, after every check. -/
def decodeBinaryEnvelope (input : ByteString) (maximumPayloadSize : Size)
    (output : BinaryEnvelope) : Result Unit × BinaryEnvelope :=
  match decodeEnvelope input maximumPayloadSize with
  | .error e => (.error e, output)
  | .ok decoded => (.ok (), decoded)

end Laghu.BinaryEnvelopes
