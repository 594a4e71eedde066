import Laghu.OtlpRequests
import Laghu.WireFields

/-!
What a reader of the wire format finds in an encoded request. The decoders follow the
OTLP messages: a field that may occur once is the last one with its number, a repeated
field keeps its order, and unknown fields are skipped. They know nothing of the encoder.
-/

namespace Laghu.OtlpEncoding

open  Varints WireFields
open BigEndian (Byte)

structure AttributeContent where
  key : List Byte
  value : List Byte
  deriving DecidableEq

structure EventContent where
  timeUnixNano : ℕ
  name : List Byte
  attributes : List AttributeContent
  deriving DecidableEq

structure TraceContent where
  traceId : List Byte
  spanId : List Byte
  name : List Byte
  startTimeUnixNano : ℕ
  endTimeUnixNano : ℕ
  attributes : List AttributeContent
  events : List EventContent
  deriving DecidableEq

/-- `value` is the bit pattern of the double. -/
structure PointContent where
  timeUnixNano : ℕ
  value : ℕ
  attributes : List AttributeContent
  deriving DecidableEq

structure MetricContent where
  name : List Byte
  unit : List Byte
  points : List PointContent
  deriving DecidableEq

/-- An identifier that was not sent is `none`. -/
structure LogContent where
  timeUnixNano : ℕ
  severityNumber : ℕ
  severityText : List Byte
  body : List Byte
  attributes : List AttributeContent
  traceId : Option (List Byte)
  spanId : Option (List Byte)
  deriving DecidableEq

structure ScopeContent (ρ : Type) where
  name : List Byte
  version : List Byte
  records : List ρ
  deriving DecidableEq

structure ResourceContent (ρ : Type) where
  attributes : List AttributeContent
  scopes : List (ScopeContent ρ)
  deriving DecidableEq

/-- A `KeyValue`; its value is an `AnyValue` that holds a string. -/
def decodeAttribute (bytes : List Byte) : Option AttributeContent := do
  let fields ← readFields bytes
  let value ← readFields (stringOf 2 fields)
  return ⟨stringOf 1 fields, stringOf 1 value⟩

def decodeEvent (bytes : List Byte) : Option EventContent := do
  let fields ← readFields bytes
  let attributes ← (stringsOf 3 fields).mapM decodeAttribute
  return ⟨numberOf 1 fields, stringOf 2 fields, attributes⟩

def decodeTrace (bytes : List Byte) : Option TraceContent := do
  let fields ← readFields bytes
  let attributes ← (stringsOf 9 fields).mapM decodeAttribute
  let events ← (stringsOf 11 fields).mapM decodeEvent
  return ⟨stringOf 1 fields, stringOf 2 fields, stringOf 5 fields, numberOf 7 fields,
    numberOf 8 fields, attributes, events⟩

def decodePoint (bytes : List Byte) : Option PointContent := do
  let fields ← readFields bytes
  let attributes ← (stringsOf 7 fields).mapM decodeAttribute
  return ⟨numberOf 3 fields, numberOf 4 fields, attributes⟩

/-- A metric with a gauge. -/
def decodeMetric (bytes : List Byte) : Option MetricContent := do
  let fields ← readFields bytes
  let gauge ← readFields (stringOf 5 fields)
  let points ← (stringsOf 1 gauge).mapM decodePoint
  return ⟨stringOf 1 fields, stringOf 3 fields, points⟩

def decodeLog (bytes : List Byte) : Option LogContent := do
  let fields ← readFields bytes
  let body ← readFields (stringOf 5 fields)
  let attributes ← (stringsOf 6 fields).mapM decodeAttribute
  return ⟨numberOf 1 fields, numberOf 2 fields, stringOf 3 fields, stringOf 1 body, attributes,
    (stringsOf 9 fields).getLast?, (stringsOf 10 fields).getLast?⟩

section

variable {ρ : Type} (decodeRecord : List Byte → Option ρ)

def decodeScope (bytes : List Byte) : Option (ScopeContent ρ) := do
  let fields ← readFields bytes
  let scope ← readFields (stringOf 1 fields)
  let records ← (stringsOf 2 fields).mapM decodeRecord
  return ⟨stringOf 1 scope, stringOf 2 scope, records⟩

def decodeResource (bytes : List Byte) : Option (ResourceContent ρ) := do
  let fields ← readFields bytes
  let resource ← readFields (stringOf 1 fields)
  let attributes ← (stringsOf 1 resource).mapM decodeAttribute
  let scopes ← (stringsOf 2 fields).mapM (decodeScope decodeRecord)
  return ⟨attributes, scopes⟩

def decodeRequest (bytes : List Byte) : Option (List (ResourceContent ρ)) := do
  let fields ← readFields bytes
  (stringsOf 1 fields).mapM (decodeResource decodeRecord)

end

def attributeContent (item : OtlpAttribute) : AttributeContent :=
  ⟨item.key.bytes, item.value.bytes⟩

/-- The attributes a record counts, of those its array holds. -/
def attributesContent {size : ℕ} (attributes : Vector OtlpAttribute size)
    (attributeCount : BitVec 8) : List AttributeContent :=
  (attributes.toList.take attributeCount.toNat).map attributeContent

def eventContent (event : OtlpEvent) : EventContent :=
  ⟨event.timeUnixNano.toNat, event.name.bytes,
    attributesContent event.attributes event.attributeCount⟩

def traceContent (record : OtlpTraceRecord) : TraceContent :=
  ⟨record.traceId.toList, record.spanId.toList, record.name.bytes,
    record.startTimeUnixNano.toNat, record.endTimeUnixNano.toNat,
    attributesContent record.attributes record.attributeCount,
    (record.events.toList.take record.eventCount.toNat).map eventContent⟩

def metricContent (record : OtlpMetricRecord) : MetricContent :=
  ⟨record.name.bytes, record.unit.bytes, [⟨record.timeUnixNano.toNat, record.value.toNat,
    attributesContent record.attributes record.attributeCount⟩]⟩

/-- An identifier that is all zero is not sent. -/
def identifierContent {size : ℕ} (value : Vector Byte size) : Option (List Byte) :=
  if value.toList.all (· == 0#8) then none else some value.toList

def logContent (record : OtlpLogRecord) : LogContent :=
  ⟨record.timeUnixNano.toNat, record.severityNumber.toNat, record.severityText.bytes,
    record.body.bytes, attributesContent record.attributes record.attributeCount,
    identifierContent record.traceId, identifierContent record.spanId⟩

/-- One resource with one scope; the service name is the first attribute of the resource. -/
def requestContent {Record ρ : Type} (content : Record → ρ) (metadata : OtlpMetadata)
    (records : List Record) : List (ResourceContent ρ) :=
  [⟨⟨serviceNameKey, metadata.serviceName.bytes⟩ ::
      attributesContent metadata.resourceAttributes metadata.resourceAttributeCount,
    [⟨metadata.scopeName.bytes, metadata.scopeVersion.bytes, records.map content⟩]⟩]

/-- A list of calls writes a list of fields. -/
structure Writes (cs : List Call) (fields : List Field) : Prop where
  bytes : wires cs = fields.flatMap Field.write
  fits : ∀ f ∈ fields, f.Fits

theorem Writes.read {cs : List Call} {fields : List Field} (h : Writes cs fields) :
    readFields (wires cs) = some fields := by
  rw [h.bytes]
  exact readFields_write h.fits

theorem tagValue_toNat (field : BitVec 32) {number : BitVec 8} (h : number.toNat < 8) :
    (tagValue field number).toNat = field.toNat * 8 + number.toNat := by
  have hfield := field.isLt
  have hor := Nat.two_pow_add_eq_or_of_lt (i := 3) h field.toNat
  rw [tagValue, BitVec.toNat_or, BitVec.toNat_shiftLeft, BitVec.toNat_setWidth,
    BitVec.toNat_setWidth, Nat.shiftLeft_eq, Nat.mod_eq_of_lt (a := number.toNat) (by omega),
    Nat.mod_eq_of_lt (a := field.toNat) (by omega), Nat.mod_eq_of_lt (by omega),
    mul_comm field.toNat, ← hor]

section

variable {cs rest : List Call} {fields others : List Field}

theorem Writes.append (h : Writes cs fields) (hr : Writes rest others) :
    Writes (cs ++ rest) (fields ++ others) where
  bytes := by rw [wires_append, h.bytes, hr.bytes, List.flatMap_append]
  fits := List.forall_mem_append.mpr ⟨h.fits, hr.fits⟩

theorem Writes.cons {c : Call} {f : Field} (h : Writes [c] [f]) (hr : Writes rest others) :
    Writes (c :: rest) (f :: others) :=
  h.append hr

theorem writes_nil : Writes [] [] := ⟨rfl, fun _ h => absurd h List.not_mem_nil⟩

theorem writes_map {α : Type} {items : List α} {f : α → Call} {g : α → Field}
    (h : ∀ a ∈ items, Writes [f a] [g a]) : Writes (items.map f) (items.map g) := by
  induction items with
  | nil => exact writes_nil
  | cons a items ih =>
    obtain ⟨ha, hitems⟩ := List.forall_mem_cons.mp h
    exact ha.cons (ih hitems)

/-- A field of bytes, which may be a message. -/
theorem writes_frame {value : List Byte} (h : value.length < 2 ^ 64) (field : BitVec 32) {c : Call}
    (hc : wire c = varint (tagValue field 2#8).toNat ++ varint value.length ++ value) :
    Writes [c] [⟨field.toNat, .bytes value⟩] := by
  have htag : (tagValue field 2#8).toNat = field.toNat * 8 + 2 := tagValue_toNat field (by decide)
  refine ⟨?_, List.forall_mem_singleton.mpr ⟨?_, h⟩⟩
  · rw [wires, wires, hc, htag, List.append_nil, List.flatMap_singleton, List.append_assoc]
    rfl
  change field.toNat * 8 + 2 < 2 ^ 64
  have := field.isLt
  omega

theorem writes_text {capacity : ℕ} (text : OtlpText capacity) (h : capacity < 2 ^ 64)
    (field : BitVec 32) : Writes [.text field text.bytes] [⟨field.toNat, .bytes text.bytes⟩] :=
  writes_frame (lt_of_le_of_lt text.fits h) field rfl

theorem writes_bytes {size : ℕ} (value : Vector Byte size) (h : size < 2 ^ 64)
    (field : BitVec 32) : Writes [.bytes field value.toList] [⟨field.toNat, .bytes value.toList⟩] :=
  writes_frame (by rw [Vector.length_toList]; exact h) field rfl

theorem writes_message {bound : ℕ} (hbounded : Bounded bound cs) (hbound : bound < 2 ^ 64)
    (field : BitVec 32) : Writes [.message field cs] [⟨field.toNat, .bytes (wires cs)⟩] :=
  writes_frame (lt_of_le_of_lt hbounded.length hbound) field rfl

theorem writes_fixed64 (field : BitVec 32) (value : BitVec 64) :
    Writes [.fixed64 field value] [⟨field.toNat, .fixed64 value.toNat⟩] := by
  have htag : (tagValue field 1#8).toNat = field.toNat * 8 + 1 := tagValue_toNat field (by decide)
  refine ⟨?_, List.forall_mem_singleton.mpr ⟨?_, value.isLt⟩⟩
  · rw [wires, wires, wire, htag, List.append_nil, List.flatMap_singleton]
    rfl
  change field.toNat * 8 + 1 < 2 ^ 64
  have := field.isLt
  omega

theorem writes_varint (field : BitVec 32) (value : BitVec 64) :
    Writes [.tag field 0#8, .varint value] [⟨field.toNat, .varint value.toNat⟩] := by
  have htag : (tagValue field 0#8).toNat = field.toNat * 8 := tagValue_toNat field (by decide)
  refine ⟨?_, List.forall_mem_singleton.mpr ⟨?_, value.isLt⟩⟩
  · rw [wires, wires, wires, wire, wire, htag, List.append_nil, List.flatMap_singleton]
    rfl
  change field.toNat * 8 < 2 ^ 64
  have := field.isLt
  omega

end

theorem read_text {capacity : ℕ} (text : OtlpText capacity) (h : capacity < 2 ^ 64) :
    readFields (wires [.text 1#32 text.bytes]) = some [⟨1, .bytes text.bytes⟩] :=
  (writes_text text h 1#32).read

theorem read_attribute (item : OtlpAttribute) : readFields (wires (encodeAttribute item)) =
      some [⟨1, .bytes item.key.bytes⟩, ⟨2, .bytes (wires [.text 1#32 item.value.bytes])⟩] :=
  ((writes_text item.key (by decide) 1#32).cons
    (writes_message (bounded_text item.value.fits (by decide) 1#32) (by decide) 2#32)).read

theorem decodeAttribute_wires (item : OtlpAttribute) :
    decodeAttribute (wires (encodeAttribute item)) = some (attributeContent item) := by
  rw [decodeAttribute, read_attribute]
  simp [stringOf, read_text, attributeContent]

theorem decodeAttributes_wires (items : List OtlpAttribute) :
    (items.map fun item => wires (encodeAttribute item)).mapM decodeAttribute =
      some (items.map attributeContent) :=
  mapM_map fun item _ => decodeAttribute_wires item

variable {size : ℕ}

theorem writes_attributes (attributes : Vector OtlpAttribute size) {attributeCount : BitVec 8}
    (h : attributeCount.toNat ≤ size) (field : BitVec 32) :
    Writes (encodeAttributes attributes attributeCount field)
      ((attributes.toList.take attributeCount.toNat).map fun item =>
        ⟨field.toNat, .bytes (wires (encodeAttribute item))⟩) := by
  rw [encodeAttributes, if_neg (by omega)]
  exact writes_map fun item _ => writes_message (bounded_attribute item) (by decide) field

theorem decodeEvent_wires {event : OtlpEvent} (h : event.attributeCount.toNat ≤ 8) :
    decodeEvent (wires (encodeEvent event)) = some (eventContent event) := by
  have hwrites := (((writes_fixed64 1#32 event.timeUnixNano).cons
    (writes_text event.name (by decide) 2#32)).append (writes_attributes event.attributes h 3#32))
  rw [decodeEvent, encodeEvent, hwrites.read]
  simp [stringOf, numberOf, decodeAttributes_wires, eventContent, attributesContent, -List.map_take,
    -List.mapM_map]

theorem decodeTrace_wires {record : OtlpTraceRecord} (h : checkTrace record = .ok ()) :
    decodeTrace (wires (encodeTrace record)) = some (traceContent record) := by
  obtain ⟨hattributes, _, hevents⟩ := checkTrace_counts h
  have hf := (writes_bytes record.traceId (by decide) 1#32).cons
    ((writes_bytes record.spanId (by decide) 2#32).cons
      ((writes_text record.name (by decide) 5#32).cons
        ((writes_fixed64 7#32 record.startTimeUnixNano).cons
          (writes_fixed64 8#32 record.endTimeUnixNano))))
  have hloop := writes_map fun event he =>
    writes_message (bounded_event (hevents event he)) (by decide) 11#32
  have hwrites := (hf.append (writes_attributes record.attributes hattributes 9#32)).append hloop
  have hdec := mapM_map fun event he => decodeEvent_wires (hevents event he)
  rw [decodeTrace, encodeTrace, hwrites.read]
  simp [stringOf, numberOf, decodeAttributes_wires, hdec, traceContent, attributesContent,
    -List.map_take, -List.mapM_map]

variable {record : OtlpMetricRecord}

theorem decodePoint_wires (h : record.attributeCount.toNat ≤ 16) :
    decodePoint (wires (encodePoint record)) =
      some ⟨record.timeUnixNano.toNat, record.value.toNat,
        attributesContent record.attributes record.attributeCount⟩ := by
  have hwrites := ((writes_fixed64 3#32 record.timeUnixNano).cons
    (writes_fixed64 4#32 record.value)).append (writes_attributes record.attributes h 7#32)
  rw [decodePoint, encodePoint, hwrites.read]
  simp [numberOf, decodeAttributes_wires, attributesContent, -List.map_take, -List.mapM_map]

theorem decodeMetric_wires (h : checkMetric record = .ok ()) :
    decodeMetric (wires (encodeMetric record)) = some (metricContent record) := by
  have hn := checkMetric_count h
  have hpoint := bounded_point hn
  have hgauge := writes_message hpoint (by decide) 1#32
  have hwrites := (writes_text record.name (by decide) 1#32).cons
    ((writes_text record.unit (by decide) 3#32).cons
      (writes_message (hpoint.message (by decide) 1#32) (by decide) 5#32))
  rw [decodeMetric, encodeMetric, hwrites.read]
  simp [stringOf, hgauge.read, decodePoint_wires hn, metricContent]

theorem nonzero_eq (value : Vector Byte size) : nonzero value = !value.toList.all (· == 0#8) := by
  rw [nonzero, List.not_all_eq_any_not]
  rfl

/-- An optional identifier is a field exactly when it has a byte that is not zero. -/
theorem writes_optional (value : Vector Byte size) (h : size < 2 ^ 64) (field : BitVec 32) :
    Writes (encodeOptionalBytes field value)
      ((identifierContent value).toList.map fun bytes => ⟨field.toNat, .bytes bytes⟩) := by
  unfold encodeOptionalBytes identifierContent
  rw [nonzero_eq, Bool.not_not]
  split
  · exact writes_nil
  · exact writes_bytes value h field

theorem decodeLog_wires {record : OtlpLogRecord} (h : checkLog record = .ok ()) :
    decodeLog (wires (encodeLog record)) = some (logContent record) := by
  have hn := checkLog_count h
  have hf := (writes_fixed64 1#32 record.timeUnixNano).cons
    ((writes_varint 2#32 (record.severityNumber.setWidth 64)).append
      ((writes_text record.severityText (by decide) 3#32).cons
        (writes_message (bounded_text record.body.fits (by decide) 1#32) (by decide) 5#32)))
  have hwrites := ((hf.append (writes_attributes record.attributes hn 6#32)).append
    (writes_optional record.traceId (by decide) 9#32)).append
    (writes_optional record.spanId (by decide) 10#32)
  have hseverity : (record.severityNumber.setWidth 64).toNat = record.severityNumber.toNat := by
    rw [BitVec.toNat_setWidth]
    exact Nat.mod_eq_of_lt (lt_trans record.severityNumber.isLt (by decide))
  have hl : ∀ o : Option (List Byte), o.toList.getLast? = o := by
    intro o
    cases o <;> rfl
  have hread := hwrites.read
  change readFields (wires (encodeLog record)) = _ at hread
  rw [decodeLog, hread]
  simp [stringOf, numberOf, read_text, decodeAttributes_wires, logContent, attributesContent,
    hseverity, hl, -List.map_take, -List.mapM_map]

variable {metadata : OtlpMetadata}

theorem writes_resource (h : metadata.resourceAttributeCount.toNat ≤ 16) :
    Writes (encodeResource metadata) ((service metadata :: metadata.resourceAttributes.toList.take
        metadata.resourceAttributeCount.toNat).map fun item =>
          ⟨1, .bytes (wires (encodeAttribute item))⟩) := by
  rw [encodeResource, if_neg (by omega)]
  exact (writes_message (bounded_attribute (service metadata)) (by decide) 1#32).cons
    (writes_map fun item _ => writes_message (bounded_attribute item) (by decide) 1#32)

theorem attributeContent_service (metadata : OtlpMetadata) :
    attributeContent (service metadata) = ⟨serviceNameKey, metadata.serviceName.bytes⟩ := by
  have hdereference : ∀ {capacity : ℕ} {text : List Byte} {t : OtlpText capacity}
      (h : (OtlpText.from capacity text).isOk = true), OtlpText.from capacity text = .ok t →
      (dereference (OtlpText.from capacity text) h) = t := by
    intro capacity text t h heq
    revert h
    rw [heq]
    exact fun _ => rfl
  unfold attributeContent service
  rw [hdereference (serviceName_isOk metadata) (OtlpText.from_bytes (by omega) _)]
  rfl

/-- The decoder finds the contents of a request in its bytes. -/
theorem decodeRequest_wire {Record ρ : Type} {records : List Record}
    {encodeRecord : Record → List Call} {decodeRecord : List Byte → Option ρ}
    {content : Record → ρ} (hmeta : metadata.resourceAttributeCount.toNat ≤ 16)
    (hn : records.length ≤ 64) (hbounded : ∀ r ∈ records, Bounded 23496 (encodeRecord r))
    (hdec : ∀ r ∈ records, decodeRecord (wires (encodeRecord r)) = some (content r)) :
    decodeRequest decodeRecord (wire (request metadata records encodeRecord)) =
      some (requestContent content metadata records) := by
  have hresource := bounded_resource hmeta
  have hscope := (writes_text metadata.scopeName (by decide) 1#32).cons
    (writes_text metadata.scopeVersion (by decide) 2#32)
  have hloop := bounded_map (fun r hr => (hbounded r hr).message (by decide) 2#32) hn
  have hrecs := ((bounded_scope metadata).message (by decide) 1#32).cons hloop
  have hscopeRecords := (writes_message (bounded_scope metadata) (by decide) 1#32).cons
    (writes_map fun r hr => writes_message (hbounded r hr) (by decide) 2#32)
  have hresourceRecords := (writes_message hresource (by decide) 1#32).cons
    (writes_message hrecs (by decide) 2#32)
  have htop := writes_message ((hresource.message (by decide) 1#32).cons
    (hrecs.message (by decide) 2#32)) (by decide) 1#32
  have hread := htop.read
  rw [wires, wires, List.append_nil] at hread
  rw [decodeRequest, request, hread]
  simp [decodeResource, decodeScope, stringOf, hresourceRecords.read, (writes_resource hmeta).read,
    hscopeRecords.read, show readFields (wires (encodeScope metadata)) = _ from hscope.read,
    mapM_map hdec, decodeAttribute_wires, decodeAttributes_wires, attributeContent_service,
    requestContent, attributesContent, -List.map_take, -List.mapM_map]

inductive Signal
  | traces | metrics | logs
  deriving DecidableEq

inductive Content
  | traces (request : List (ResourceContent TraceContent))
  | metrics (request : List (ResourceContent MetricContent))
  | logs (request : List (ResourceContent LogContent))
  deriving DecidableEq

def decode : Signal → List Byte → Option Content
  | .traces, bytes => (decodeRequest decodeTrace bytes).map .traces
  | .metrics, bytes => (decodeRequest decodeMetric bytes).map .metrics
  | .logs, bytes => (decodeRequest decodeLog bytes).map .logs

namespace Records

def signal : Records → Signal
  | .traces _ => .traces
  | .metrics _ => .metrics
  | .logs _ => .logs

/-- What a request says, apart from how it is laid out in memory. -/
def content (metadata : OtlpMetadata) : Records → Content
  | .traces records => .traces (requestContent traceContent metadata records)
  | .metrics records => .metrics (requestContent metricContent metadata records)
  | .logs records => .logs (requestContent logContent metadata records)

variable {metadata : OtlpMetadata} {records : Records}

theorem decode_wire (hv : records.validate metadata = .ok ())
    (hn : records.size ≤ 64) :
    decode records.signal (wire (records.request metadata)) = some (records.content metadata) := by
  cases records with
  | traces records =>
    obtain ⟨hmeta, hrecs⟩ := validate_eq_ok hv
    exact congrArg (Option.map Content.traces) (decodeRequest_wire hmeta hn
      (fun r hr => bounded_trace (hrecs r hr)) fun r hr => decodeTrace_wires (hrecs r hr))
  | metrics records =>
    obtain ⟨hmeta, hrecs⟩ := validate_eq_ok hv
    exact congrArg (Option.map Content.metrics) (decodeRequest_wire hmeta hn
      (fun r hr => bounded_metric (hrecs r hr)) fun r hr => decodeMetric_wires (hrecs r hr))
  | logs records =>
    obtain ⟨hmeta, hrecs⟩ := validate_eq_ok hv
    exact congrArg (Option.map Content.logs) (decodeRequest_wire hmeta hn
      (fun r hr => bounded_log (hrecs r hr)) fun r hr => decodeLog_wires (hrecs r hr))

theorem decode_written {output : List Byte} {scratchSize : ℕ}
    {result : OtlpEncodeResult} (h : (records.encode metadata output scratchSize).1 = .ok result) :
    decode records.signal ((records.encode metadata output scratchSize).2.take
      result.bytesWritten) = some (records.content metadata) := by
  obtain ⟨hv, hn, hw⟩ := encode_eq_ok h
  rw [hw]
  exact decode_wire hv hn

/-- The written bytes of a request decode to its contents, so requests that are
encoded alike say the same. -/
theorem decode_encode {records : Records} {output : List Byte} {scratchSize : ℕ}
    {result : OtlpEncodeResult} (h : (records.encode metadata output scratchSize).1 = .ok result) :
    decode records.signal ((records.encode metadata output scratchSize).2.take
      result.bytesWritten) = some (records.content metadata) ∧
    ∀ (metadata' : OtlpMetadata) (records' : Records) (output' : List Byte) (scratchSize' : ℕ)
      (result' : OtlpEncodeResult), records'.signal = records.signal →
      (records'.encode metadata' output' scratchSize').1 = .ok result' →
      (records'.encode metadata' output' scratchSize').2.take result'.bytesWritten =
        (records.encode metadata output scratchSize).2.take result.bytesWritten →
      records'.content metadata' = records.content metadata := by
  refine ⟨decode_written h, ?_⟩
  intro metadata' records' output' scratchSize' result' hsignal h' hbytes
  have hdecode := decode_written h'
  rw [hsignal, hbytes, decode_written h] at hdecode
  exact (Option.some.inj hdecode).symm

/-- A log record without identifiers. -/
theorem decode_encode_log :
    let text : {capacity : ℕ} → 1 ≤ capacity → OtlpText capacity := fun h => ⟨[97#8], h, rfl⟩
    let item : OtlpAttribute := ⟨text (by decide), text (by decide)⟩
    let metadata : OtlpMetadata := ⟨text (by decide), text (by decide), text (by decide),
      .replicate 16 item, 1#8⟩
    let records : Records := .logs [⟨1#64, 9#32, text (by decide), text (by decide),
      .replicate 16 0#8, .replicate 8 0#8, .replicate 16 item, 2#8⟩]
    let output := List.replicate (wire (records.request metadata)).length 0#8
    ∃ result, (records.encode metadata output 64).1 = .ok result ∧
      decode .logs ((records.encode metadata output 64).2.take result.bytesWritten) =
        some (records.content metadata) := by
  intro text item metadata records output
  have hroom : (wire (records.request metadata)).length ≤ output.length := by
    rw [List.length_replicate]
  have hok := encode_of_room rfl (show records.size ≤ 64 by decide) (le_refl 64) hroom
  exact ⟨_, congrArg Prod.fst hok, (decode_encode (congrArg Prod.fst hok)).1⟩

end Records

end Laghu.OtlpEncoding
