import Laghu.ByteStrings

/-!
The OTLP encoder. Every encoder of the source is generic in its output, and `message`
runs one encoder on a `Sizer` for the length and on the `Writer` for the bytes. An
encoder is here the list of the calls it makes on its output, joined by `&&`, and the
two outputs interpret that list, each in its own way.
-/

namespace Laghu.OtlpEncoding

open Contract
open BigEndian (Byte)

def continuation (byte : Byte) : Bool := byte &&& 0xc0#8 == 0x80#8

def validUtf8 : List Byte → Bool
  | [] => true
  | first :: rest =>
    if first ≤ 0x7f#8 then validUtf8 rest
    else if 0xc2#8 ≤ first ∧ first ≤ 0xdf#8 then
      match rest with
      | second :: rest => continuation second && validUtf8 rest
      | _ => false
    else if 0xe0#8 ≤ first ∧ first ≤ 0xef#8 then
      match rest with
      | second :: third :: rest =>
        if !continuation second || !continuation third || (first == 0xe0#8 && second < 0xa0#8) ||
            (first == 0xed#8 && 0xa0#8 ≤ second) then false
        else validUtf8 rest
      | _ => false
    else if 0xf0#8 ≤ first ∧ first ≤ 0xf4#8 then
      match rest with
      | second :: third :: fourth :: rest =>
        if !continuation second || !continuation third || !continuation fourth ||
            (first == 0xf0#8 && second < 0x90#8) || (first == 0xf4#8 && 0x90#8 ≤ second) then false
        else validUtf8 rest
      | _ => false
    else false

/-- `bytes` are the first `size_` characters of the array. -/
structure OtlpText (capacity : ℕ) where
  bytes : List Byte
  fits : bytes.length ≤ capacity
  utf8 : validUtf8 bytes = true

def OtlpText.from (capacity : ℕ) (text : List Byte) : Result (OtlpText capacity) :=
  if h : text.length > capacity then
    .error (coreError .exhaustion "OTLP text capacity is exhausted")
  else if hutf8 : validUtf8 text = true then .ok ⟨text, Nat.le_of_not_lt h, hutf8⟩
  else .error (coreError .invalidInput "OTLP text is not valid UTF-8")

def OtlpText.empty {capacity : ℕ} (text : OtlpText capacity) : Bool := text.bytes.isEmpty

structure OtlpAttribute where
  key : OtlpText 64
  value : OtlpText 128

structure OtlpMetadata where
  serviceName : OtlpText 64
  scopeName : OtlpText 64
  scopeVersion : OtlpText 32
  resourceAttributes : Vector OtlpAttribute 16
  resourceAttributeCount : BitVec 8

structure OtlpEvent where
  timeUnixNano : BitVec 64
  name : OtlpText 128
  attributes : Vector OtlpAttribute 8
  attributeCount : BitVec 8

structure OtlpTraceRecord where
  traceId : Vector Byte 16
  spanId : Vector Byte 8
  name : OtlpText 128
  startTimeUnixNano : BitVec 64
  endTimeUnixNano : BitVec 64
  attributes : Vector OtlpAttribute 16
  attributeCount : BitVec 8
  events : Vector OtlpEvent 8
  eventCount : BitVec 8

/-- `value` is the bit pattern of the double. -/
structure OtlpMetricRecord where
  name : OtlpText 128
  unit : OtlpText 64
  timeUnixNano : BitVec 64
  value : BitVec 64
  attributes : Vector OtlpAttribute 16
  attributeCount : BitVec 8

structure OtlpLogRecord where
  timeUnixNano : BitVec 64
  severityNumber : BitVec 32
  severityText : OtlpText 32
  body : OtlpText 256
  traceId : Vector Byte 16
  spanId : Vector Byte 8
  attributes : Vector OtlpAttribute 16
  attributeCount : BitVec 8

def nonzero {size : ℕ} (value : Vector Byte size) : Bool := value.toList.any (· != 0#8)

/-- A call that an encoder makes on its output; `refuse` is a plain `return false`. -/
inductive Call
  | varint (value : BitVec 64)
  | tag (field : BitVec 32) (wire : BitVec 8)
  | bytes (field : BitVec 32) (value : List Byte)
  | text (field : BitVec 32) (value : List Byte)
  | fixed64 (field : BitVec 32) (value : BitVec 64)
  | message (field : BitVec 32) (encoder : List Call)
  | refuse

/-- The operand of `varint` in `tag`. -/
def tagValue (field : BitVec 32) (wire : BitVec 8) : BitVec 64 :=
  (field.setWidth 64 <<< 3) ||| wire.setWidth 64

/-- `f` runs only when the call before it returned true. -/
def andThen {σ : Type} (r : Bool × σ) (f : σ → Bool × σ) : Bool × σ :=
  if r.1 then f r.2 else r

variable {value : BitVec 64}

theorem shift_decreases (h : value >>> 7 ≠ 0#64) :
    (value >>> 7).toNat < value.toNat := by
  have hne : (value >>> 7).toNat ≠ 0 := fun h0 => h (BitVec.eq_of_toNat_eq h0)
  rw [BitVec.toNat_ushiftRight, Nat.shiftRight_eq_div_pow] at hne ⊢
  omega

theorem shift_ne_zero (h : 0x80#64 ≤ value) : value >>> 7 ≠ 0#64 := by
  intro h0
  have hnat := congrArg BitVec.toNat h0
  rw [BitVec.toNat_ushiftRight, Nat.shiftRight_eq_div_pow] at hnat
  have hle : 128 ≤ value.toNat := h
  change value.toNat / 2 ^ 7 = 0 at hnat
  omega

/-- The loop in `varint_size`, from the value and the result so far. -/
def varintSizeLoop (value : BitVec 64) (result : Size) : Size :=
  if _h : 0x80#64 ≤ value then varintSizeLoop (value >>> 7) (result + 1#64) else result
termination_by value.toNat
decreasing_by exact shift_decreases (shift_ne_zero ‹_›)

def varintSize (value : BitVec 64) : Size := varintSizeLoop value 1#64

/-- `value.size()` of a span or a string view. -/
def sizeOf (value : List Byte) : Size := BitVec.ofNat 64 value.length

structure Sizer where
  used : Size := 0#64

namespace Sizer

def varint (s : Sizer) (value : BitVec 64) : Bool × Sizer := (true, ⟨s.used + varintSize value⟩)

def tag (s : Sizer) (field : BitVec 32) (wire : BitVec 8) : Bool × Sizer :=
  s.varint (tagValue field wire)

def bytes (s : Sizer) (field : BitVec 32) (value : List Byte) : Bool × Sizer :=
  (true, ⟨s.used + (varintSize (tagValue field 2#8) + varintSize (sizeOf value) + sizeOf value)⟩)

def text (s : Sizer) (field : BitVec 32) (value : List Byte) : Bool × Sizer :=
  (true, ⟨s.used + (varintSize (tagValue field 2#8) + varintSize (sizeOf value) + sizeOf value)⟩)

def fixed64 (s : Sizer) (field : BitVec 32) : Bool × Sizer :=
  (true, ⟨s.used + (varintSize (tagValue field 1#8) + 8#64)⟩)

mutual
def call : Call → Sizer → Bool × Sizer
  | .varint value, s => s.varint value
  | .tag field wire, s => s.tag field wire
  | .bytes field value, s => s.bytes field value
  | .text field value, s => s.text field value
  | .fixed64 field _, s => s.fixed64 field
  | .message field encoder, s =>
    let child := calls encoder {}
    if !child.1 then (false, s)
    else (true, ⟨s.used + (varintSize (tagValue field 2#8) + varintSize child.2.used +
      child.2.used)⟩)
  | .refuse, s => (false, s)

def calls : List Call → Sizer → Bool × Sizer
  | [], s => (true, s)
  | c :: rest, s => andThen (call c s) (calls rest)
end

end Sizer

/-- The output bytes and how many of them are used. -/
structure Writer where
  output : List Byte
  used : ℕ

namespace Writer

/-- `output_[used_++] = byte` for one byte after the other. -/
def put (w : Writer) (bytes : List Byte) : Writer :=
  ⟨ByteStrings.ByteString.store w.output w.used bytes, w.used + bytes.length⟩

def varint (w : Writer) (value : BitVec 64) : Bool × Writer :=
  if w.used = w.output.length then (false, w)
  else
    let byte := (value &&& 0x7f#64).setWidth 8
    if _h : value >>> 7 ≠ 0#64 then (w.put [byte ||| 0x80#8]).varint (value >>> 7)
    else (true, w.put [byte])
termination_by value.toNat
decreasing_by exact shift_decreases ‹_›

def tag (w : Writer) (field : BitVec 32) (wire : BitVec 8) : Bool × Writer :=
  w.varint (tagValue field wire)

/-- The bytes after a tag and a length, if they fit. -/
def payload (value : List Byte) (w : Writer) : Bool × Writer :=
  if value.length > w.output.length - w.used then (false, w) else (true, w.put value)

def bytes (w : Writer) (field : BitVec 32) (value : List Byte) : Bool × Writer :=
  andThen (andThen (w.tag field 2#8) (·.varint (sizeOf value))) (payload value)

def text (w : Writer) (field : BitVec 32) (value : List Byte) : Bool × Writer :=
  andThen (andThen (w.tag field 2#8) (·.varint (sizeOf value))) (payload value)

/-- The loop over the shifts 0, 8, …, 56. -/
def shiftedBytes (value : BitVec 64) : List Byte :=
  (List.range 8).map fun i => ((value >>> (8 * i)) &&& 0xff#64).setWidth 8

def fixed64 (w : Writer) (field : BitVec 32) (value : BitVec 64) : Bool × Writer :=
  andThen (w.tag field 1#8) fun w =>
    if w.output.length - w.used < 8 then (false, w) else (true, w.put (shiftedBytes value))

mutual
def call : Call → Writer → Bool × Writer
  | .varint value, w => w.varint value
  | .tag field wire, w => w.tag field wire
  | .bytes field value, w => w.bytes field value
  | .text field value, w => w.text field value
  | .fixed64 field value, w => w.fixed64 field value
  | .message field encoder, w =>
    let child := Sizer.calls encoder {}
    if !child.1 then (false, w)
    else andThen (andThen (w.tag field 2#8) (·.varint child.2.used)) (calls encoder)
  | .refuse, w => (false, w)

def calls : List Call → Writer → Bool × Writer
  | [], w => (true, w)
  | c :: rest, w => andThen (call c w) (calls rest)
end

end Writer

def encodeAttribute (item : OtlpAttribute) : List Call :=
  [.text 1#32 item.key.bytes, .message 2#32 [.text 1#32 item.value.bytes]]

def encodeOptionalBytes {size : ℕ} (field : BitVec 32) (value : Vector Byte size) : List Call :=
  if !nonzero value then [] else [.bytes field value.toList]

def encodeAttributes {size : ℕ} (attributes : Vector OtlpAttribute size)
    (attributeCount : BitVec 8) (field : BitVec 32) : List Call :=
  if attributeCount.toNat > size then [.refuse]
  else (attributes.toList.take attributeCount.toNat).map fun item =>
    .message field (encodeAttribute item)

/-- `*result`, defined only when there is a value. -/
def dereference {α : Type} : (result : Result α) → result.isOk = true → α
  | .ok a, _ => a
  | .error _, h => nomatch h

/-- The characters of `"service.name"`. -/
def serviceNameKey : List Byte :=
  [115#8, 101#8, 114#8, 118#8, 105#8, 99#8, 101#8, 46#8, 110#8, 97#8, 109#8, 101#8]

theorem serviceNameKey_isOk : (OtlpText.from 64 serviceNameKey).isOk = true := by decide

theorem OtlpText.from_bytes {small large : ℕ} (h : small ≤ large) (text : OtlpText small) :
    OtlpText.from large text.bytes = .ok ⟨text.bytes, Nat.le_trans text.fits h, text.utf8⟩ := by
  rw [OtlpText.from, dif_neg (Nat.not_lt.mpr (Nat.le_trans text.fits h)), dif_pos text.utf8]

theorem serviceName_isOk (metadata : OtlpMetadata) :
    (OtlpText.from 128 metadata.serviceName.bytes).isOk = true := by
  rw [OtlpText.from_bytes (by omega)]
  rfl

def service (metadata : OtlpMetadata) : OtlpAttribute where
  key := dereference (OtlpText.from 64 serviceNameKey) serviceNameKey_isOk
  value := dereference (OtlpText.from 128 metadata.serviceName.bytes) (serviceName_isOk metadata)

def encodeResource (metadata : OtlpMetadata) : List Call :=
  if metadata.resourceAttributeCount.toNat > 16 then [.refuse]
  else .message 1#32 (encodeAttribute (service metadata)) ::
    (metadata.resourceAttributes.toList.take metadata.resourceAttributeCount.toNat).map
      fun item => .message 1#32 (encodeAttribute item)

/-- The two fields of the scope of a request. -/
def encodeScope (metadata : OtlpMetadata) : List Call :=
  [.text 1#32 metadata.scopeName.bytes, .text 2#32 metadata.scopeVersion.bytes]

/-- The one call `encode_request` makes on its writer. -/
def request {Record : Type} (metadata : OtlpMetadata) (records : List Record)
    (encodeRecord : Record → List Call) : Call :=
  .message 1#32
    [.message 1#32 (encodeResource metadata),
      .message 2#32 (.message 1#32 (encodeScope metadata) ::
        records.map fun record => .message 2#32 (encodeRecord record))]

structure OtlpEncodeResult where
  bytesWritten : ℕ

/-- The result, and the output as the call leaves it. -/
def encodeRequest {Record : Type} (metadata : OtlpMetadata) (records : List Record)
    (output : List Byte) (scratchSize : ℕ) (encodeRecord : Record → List Call) :
    Result OtlpEncodeResult × List Byte :=
  if records.length > 64 ∨ scratchSize < 64 then
    (.error (coreError .exhaustion "OTLP batch or scratch capacity is exhausted"), output)
  else
    let valid := Writer.call (request metadata records encodeRecord) ⟨output, 0⟩
    if !valid.1 then
      (.error (coreError .exhaustion "OTLP output capacity is exhausted"), valid.2.output)
    else (.ok ⟨valid.2.used⟩, valid.2.output)

def invalid (text : String) : Error := coreError .invalidInput text

def validMetadata (metadata : OtlpMetadata) : Bool :=
  decide (metadata.resourceAttributeCount.toNat ≤ 16)

def metadataError : Error := invalid "OTLP resource attribute count is invalid"

def validEvent (event : OtlpEvent) : Bool :=
  !(event.name.empty || event.timeUnixNano == 0#64 || !decide (event.attributeCount.toNat ≤ 8))

/-- The checks of one trace record, its events last. -/
def checkTrace (record : OtlpTraceRecord) : Result Unit :=
  if !nonzero record.traceId || !nonzero record.spanId || record.name.empty ||
      record.startTimeUnixNano == 0#64 || record.endTimeUnixNano < record.startTimeUnixNano ||
      decide (record.eventCount.toNat > 8) || !decide (record.attributeCount.toNat ≤ 16) then
    .error (invalid "OTLP trace identifier or time range is invalid")
  else if !(record.events.toList.take record.eventCount.toNat).all validEvent then
    .error (invalid "OTLP trace event is invalid")
  else .ok ()

def checkMetric (record : OtlpMetricRecord) : Result Unit :=
  if record.name.empty || record.timeUnixNano == 0#64 ||
      !decide (record.attributeCount.toNat ≤ 16) then
    .error (invalid "OTLP metric name or timestamp is invalid")
  else .ok ()

def checkLog (record : OtlpLogRecord) : Result Unit :=
  if record.body.empty || record.timeUnixNano == 0#64 ||
      (nonzero record.spanId && !nonzero record.traceId) ||
      !decide (record.attributeCount.toNat ≤ 16) then
    .error (invalid "OTLP log body, timestamp, or correlation identifier is invalid")
  else .ok ()

/-- The validation every signal starts with: the metadata, then record by record. -/
def validate {Record : Type} (check : Record → Result Unit) (metadata : OtlpMetadata)
    (records : List Record) : Result Unit :=
  if !validMetadata metadata then .error metadataError else records.forM check

def encodeEvent (event : OtlpEvent) : List Call :=
  [.fixed64 1#32 event.timeUnixNano, .text 2#32 event.name.bytes] ++
    encodeAttributes event.attributes event.attributeCount 3#32

def encodeTrace (record : OtlpTraceRecord) : List Call :=
  [.bytes 1#32 record.traceId.toList, .bytes 2#32 record.spanId.toList,
    .text 5#32 record.name.bytes, .fixed64 7#32 record.startTimeUnixNano,
    .fixed64 8#32 record.endTimeUnixNano] ++
    encodeAttributes record.attributes record.attributeCount 9#32 ++
    (record.events.toList.take record.eventCount.toNat).map fun event =>
      .message 11#32 (encodeEvent event)

def encodePoint (record : OtlpMetricRecord) : List Call :=
  [.fixed64 3#32 record.timeUnixNano, .fixed64 4#32 record.value] ++
    encodeAttributes record.attributes record.attributeCount 7#32

def encodeMetric (record : OtlpMetricRecord) : List Call :=
  [.text 1#32 record.name.bytes, .text 3#32 record.unit.bytes,
    .message 5#32 [.message 1#32 (encodePoint record)]]

def encodeLog (record : OtlpLogRecord) : List Call :=
  [.fixed64 1#32 record.timeUnixNano, .tag 2#32 0#8, .varint (record.severityNumber.setWidth 64),
    .text 3#32 record.severityText.bytes, .message 5#32 [.text 1#32 record.body.bytes]] ++
    encodeAttributes record.attributes record.attributeCount 6#32 ++
    encodeOptionalBytes 9#32 record.traceId ++ encodeOptionalBytes 10#32 record.spanId

/-- Validation, then the request. -/
def encodeValidated {Record : Type} (check : Record → Result Unit)
    (encodeRecord : Record → List Call) (metadata : OtlpMetadata) (records : List Record)
    (output : List Byte) (scratchSize : ℕ) : Result OtlpEncodeResult × List Byte :=
  match validate check metadata records with
  | .error e => (.error e, output)
  | .ok () => encodeRequest metadata records output scratchSize encodeRecord

def encodeOtlpTraces := encodeValidated checkTrace encodeTrace

def encodeOtlpMetrics := encodeValidated checkMetric encodeMetric

def encodeOtlpLogs := encodeValidated checkLog encodeLog

/-- The records of one call, of the kind the call encodes. -/
inductive Records
  | traces (records : List OtlpTraceRecord)
  | metrics (records : List OtlpMetricRecord)
  | logs (records : List OtlpLogRecord)

namespace Records

def size : Records → ℕ
  | .traces records => records.length
  | .metrics records => records.length
  | .logs records => records.length

def validate (metadata : OtlpMetadata) : Records → Result Unit
  | .traces records => OtlpEncoding.validate checkTrace metadata records
  | .metrics records => OtlpEncoding.validate checkMetric metadata records
  | .logs records => OtlpEncoding.validate checkLog metadata records

def request (metadata : OtlpMetadata) : Records → Call
  | .traces records => OtlpEncoding.request metadata records encodeTrace
  | .metrics records => OtlpEncoding.request metadata records encodeMetric
  | .logs records => OtlpEncoding.request metadata records encodeLog

def encode (metadata : OtlpMetadata) (output : List Byte) (scratchSize : ℕ) :
    Records → Result OtlpEncodeResult × List Byte
  | .traces records => encodeOtlpTraces metadata records output scratchSize
  | .metrics records => encodeOtlpMetrics metadata records output scratchSize
  | .logs records => encodeOtlpLogs metadata records output scratchSize

end Records

end Laghu.OtlpEncoding
