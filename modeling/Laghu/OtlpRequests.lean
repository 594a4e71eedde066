import Laghu.OtlpWire

/-!
Requests that pass validation. No encoder of theirs refuses and all of them are far
smaller than a `std::size_t` can count, so the sizer and the writer agree on every
message inside them, and a request is written exactly when the output has room for it.
-/

namespace Laghu.OtlpEncoding

open Contract Varints
open BigEndian (Byte)
open List (append_nil length_append)

/-- A list of calls none of which refuses, with at most `bound` bytes. -/
structure Bounded (bound : ℕ) (cs : List Call) : Prop where
  accepts : AcceptsAll cs
  length : (wires cs).length ≤ bound

theorem varint_length {n : ℕ} (h : n < 2 ^ 64) : (varint n).length ≤ 10 :=
  length_varint_le 9 (lt_of_lt_of_le h (by decide))

theorem tag_length (field : BitVec 32) (number : BitVec 8) :
    (varint (tagValue field number).toNat).length ≤ 10 :=
  varint_length (tagValue field number).isLt

section

variable {bound other : ℕ} {cs rest : List Call} {value : List Byte}

theorem bounded_nil : Bounded 0 [] := ⟨trivial, le_refl 0⟩

theorem Bounded.weaken (h : Bounded bound cs) (hle : bound ≤ other) : Bounded other cs :=
  ⟨h.accepts, le_trans h.length hle⟩

theorem wires_append (cs rest : List Call) : wires (cs ++ rest) = wires cs ++ wires rest := by
  induction cs with
  | nil => rfl
  | cons c cs ih => rw [List.cons_append, wires, ih, wires, List.append_assoc]

theorem acceptsAll_iff : AcceptsAll cs ↔ ∀ c ∈ cs, Accepts c := by
  induction cs with
  | nil => simp [AcceptsAll]
  | cons c cs ih => rw [AcceptsAll, ih, List.forall_mem_cons]

theorem Bounded.append (h : Bounded bound cs) (hr : Bounded other rest) :
    Bounded (bound + other) (cs ++ rest) := by
  refine ⟨?_, ?_⟩
  · rw [acceptsAll_iff, List.forall_mem_append, ← acceptsAll_iff, ← acceptsAll_iff]
    exact ⟨h.accepts, hr.accepts⟩
  · rw [wires_append, length_append]
    exact Nat.add_le_add h.length hr.length

theorem Bounded.cons {c : Call} (h : Bounded bound [c]) (hr : Bounded other rest) :
    Bounded (bound + other) (c :: rest) :=
  h.append hr

theorem bounded_text (h : value.length ≤ bound) (hbound : bound < 2 ^ 64)
    (field : BitVec 32) : Bounded (bound + 20) [.text field value] := by
  refine ⟨⟨trivial, trivial⟩, ?_⟩
  have htag := tag_length field 2#8
  have hlen := varint_length (lt_of_le_of_lt h hbound)
  simp only [wires, wire, append_nil, length_append]
  omega

theorem bounded_bytes (h : value.length ≤ bound) (hbound : bound < 2 ^ 64)
    (field : BitVec 32) : Bounded (bound + 20) [.bytes field value] :=
  ⟨⟨trivial, trivial⟩, (bounded_text h hbound field).length⟩

theorem bounded_fixed64 (field : BitVec 32) (value : BitVec 64) :
    Bounded 18 [.fixed64 field value] := by
  refine ⟨⟨trivial, trivial⟩, ?_⟩
  have htag := tag_length field 1#8
  simp only [wires, wire, append_nil, length_append, length_littleEndian]
  omega

theorem bounded_varint (value : BitVec 64) : Bounded 10 [.varint value] := by
  refine ⟨⟨trivial, trivial⟩, ?_⟩
  rw [wires, wires, wire, append_nil]
  exact varint_length value.isLt

theorem bounded_tag (field : BitVec 32) (number : BitVec 8) : Bounded 10 [.tag field number] :=
  ⟨⟨trivial, trivial⟩, (bounded_varint (tagValue field number)).length⟩

theorem Bounded.message (h : Bounded bound cs) (hbound : bound < 2 ^ 64) (field : BitVec 32) :
    Bounded (bound + 20) [.message field cs] := by
  refine ⟨⟨h.accepts, trivial⟩, ?_⟩
  have htag := tag_length field 2#8
  have hlen := varint_length (lt_of_le_of_lt h.length hbound)
  have hcs := h.length
  simp only [wires, wire, append_nil, length_append]
  omega

/-- A loop that makes one call for each element. -/
theorem bounded_map {α : Type} {items : List α} {f : α → Call} {n : ℕ}
    (h : ∀ a ∈ items, Bounded bound [f a]) (hn : items.length ≤ n) :
    Bounded (n * bound) (items.map f) := by
  have hlen : Bounded (items.length * bound) (items.map f) := by
    clear hn
    induction items with
    | nil => exact bounded_nil.weaken (by omega)
    | cons a items ih =>
      obtain ⟨hhead, htail⟩ := List.forall_mem_cons.mp h
      refine (hhead.cons (ih htail)).weaken ?_
      rw [List.length_cons, Nat.succ_mul]
      omega
  exact hlen.weaken (Nat.mul_le_mul_right bound hn)

end

theorem bounded_attribute (item : OtlpAttribute) : Bounded 252 (encodeAttribute item) := by
  have hv := (bounded_text item.value.fits (by decide) 1#32).message (by decide) 2#32
  exact (bounded_text item.key.fits (by decide) 1#32).cons hv

variable {size scratchSize : ℕ}

theorem bounded_attributes (attributes : Vector OtlpAttribute size) {attributeCount : BitVec 8}
    (h : attributeCount.toNat ≤ size) (field : BitVec 32) :
    Bounded (size * 272) (encodeAttributes attributes attributeCount field) := by
  rw [encodeAttributes, if_neg (by omega)]
  refine bounded_map (fun item _ => (bounded_attribute item).message (by decide) field) ?_
  rw [List.length_take, Vector.length_toList]
  omega

variable {metadata : OtlpMetadata}

theorem bounded_resource (h : metadata.resourceAttributeCount.toNat ≤ 16) :
    Bounded 4624 (encodeResource metadata) := by
  have hattributes := bounded_attributes metadata.resourceAttributes h 1#32
  rw [encodeAttributes, if_neg (by omega)] at hattributes
  rw [encodeResource, if_neg (by omega)]
  exact (((bounded_attribute (service metadata)).message (by decide) 1#32).cons
    hattributes).weaken (by decide)

theorem bounded_scope (metadata : OtlpMetadata) : Bounded 136 (encodeScope metadata) :=
  ((bounded_text metadata.scopeName.fits (by decide) 1#32).cons
    (bounded_text metadata.scopeVersion.fits (by decide) 2#32)).weaken (by decide)

theorem bounded_optional (h : size ≤ 16) (field : BitVec 32) (value : Vector Byte size) :
    Bounded 36 (encodeOptionalBytes field value) := by
  unfold encodeOptionalBytes
  split
  · exact bounded_nil.weaken (by decide)
  · exact bounded_bytes (by rw [Vector.length_toList]; exact h) (by decide) field

theorem bounded_event {event : OtlpEvent} (h : event.attributeCount.toNat ≤ 8) :
    Bounded 2342 (encodeEvent event) :=
  (((bounded_fixed64 1#32 event.timeUnixNano).cons
    (bounded_text event.name.fits (by decide) 2#32)).append
    (bounded_attributes event.attributes h 3#32)).weaken (by decide)

variable {record : OtlpTraceRecord}

/-- What the checks of a trace record leave to the encoder. -/
theorem checkTrace_counts (h : checkTrace record = .ok ()) :
    record.attributeCount.toNat ≤ 16 ∧ record.eventCount.toNat ≤ 8 ∧
      ∀ event ∈ record.events.toList.take record.eventCount.toNat,
        event.attributeCount.toNat ≤ 8 := by
  unfold checkTrace at h
  split at h
  · exact nomatch h
  rename_i hrecord
  split at h
  · exact nomatch h
  rename_i hevents
  simp only [Bool.or_eq_true, Bool.not_eq_true', decide_eq_true_eq, decide_eq_false_iff_not,
    not_or, not_not] at hrecord
  refine ⟨hrecord.2, Nat.le_of_not_lt hrecord.1.2, fun event he => ?_⟩
  simp only [Bool.not_eq_true', Bool.not_eq_false, List.all_eq_true] at hevents
  have hv := hevents event he
  simp only [validEvent, Bool.not_eq_true', Bool.or_eq_false_iff,
    Bool.not_eq_false', decide_eq_true_eq] at hv
  exact hv.2

theorem bounded_trace (h : checkTrace record = .ok ()) : Bounded 23496 (encodeTrace record) := by
  obtain ⟨hattributes, hevents, hevent⟩ := checkTrace_counts h
  have hf := (bounded_bytes (le_of_eq record.traceId.length_toList) (by decide) 1#32).cons
    ((bounded_bytes (le_of_eq record.spanId.length_toList) (by decide) 2#32).cons
      ((bounded_text record.name.fits (by decide) 5#32).cons
        ((bounded_fixed64 7#32 record.startTimeUnixNano).cons
          (bounded_fixed64 8#32 record.endTimeUnixNano))))
  have hloop := bounded_map (n := 8)
    (fun event he => (bounded_event (hevent event he)).message (by decide) 11#32)
    (by rw [List.length_take]; omega)
  exact ((hf.append (bounded_attributes record.attributes hattributes 9#32)).append
    hloop).weaken (by decide)

/-- A check that ends with the number of attributes bounds it. -/
theorem count_of_check {refused : Bool} {count : ℕ} {e : Error}
    (h : (if refused || !decide (count ≤ 16) then .error e else .ok () : Result Unit) = .ok ()) :
    count ≤ 16 := by
  split at h
  · cases h
  rename_i hrecord
  simp only [Bool.or_eq_true, Bool.not_eq_true', decide_eq_false_iff_not, not_or,
    not_not] at hrecord
  exact hrecord.2

variable {record : OtlpMetricRecord}

theorem checkMetric_count (h : checkMetric record = .ok ()) : record.attributeCount.toNat ≤ 16 :=
  count_of_check h

theorem checkLog_count {record : OtlpLogRecord} (h : checkLog record = .ok ()) :
    record.attributeCount.toNat ≤ 16 :=
  count_of_check h

theorem bounded_point (h : record.attributeCount.toNat ≤ 16) : Bounded 4388 (encodePoint record) :=
  (((bounded_fixed64 3#32 record.timeUnixNano).cons (bounded_fixed64 4#32 record.value)).append
    (bounded_attributes record.attributes h 7#32)).weaken (by decide)

theorem bounded_metric (h : checkMetric record = .ok ()) : Bounded 23496 (encodeMetric record) := by
  have hgauge := ((bounded_point (checkMetric_count h)).message (by decide) 1#32).message
    (by decide) 5#32
  exact ((bounded_text record.name.fits (by decide) 1#32).cons
    ((bounded_text record.unit.fits (by decide) 3#32).cons hgauge)).weaken (by decide)

theorem bounded_log {record : OtlpLogRecord} (h : checkLog record = .ok ()) :
    Bounded 23496 (encodeLog record) := by
  have hf := (bounded_fixed64 1#32 record.timeUnixNano).cons
    ((bounded_tag 2#32 0#8).cons ((bounded_varint (record.severityNumber.setWidth 64)).cons
      ((bounded_text record.severityText.fits (by decide) 3#32).cons
        ((bounded_text record.body.fits (by decide) 1#32).message (by decide) 5#32))))
  exact (((hf.append (bounded_attributes record.attributes (checkLog_count h) 6#32)).append
    (bounded_optional (by decide) 9#32 record.traceId)).append
    (bounded_optional (by decide) 10#32 record.spanId)).weaken (by decide)

theorem forM_eq_ok {α : Type} {check : α → Result Unit} {items : List α} :
    items.forM check = .ok () ↔ ∀ a ∈ items, check a = .ok () := by
  induction items with
  | nil => simp [pure, Except.pure]
  | cons a items ih =>
    change (check a >>= fun _ => items.forM check) = .ok () ↔ _
    rw [bind_eq_ok, List.forall_mem_cons, ← ih]
    exact ⟨fun ⟨_, ha, hr⟩ => ⟨ha, hr⟩, fun ⟨ha, hr⟩ => ⟨(), ha, hr⟩⟩

variable {Record : Type}

variable {check : Record → Result Unit} {records : List Record}

theorem validate_eq_ok (h : validate check metadata records = .ok ()) :
    metadata.resourceAttributeCount.toNat ≤ 16 ∧ ∀ record ∈ records, check record = .ok () := by
  unfold validate at h
  split at h
  · exact nomatch h
  rename_i hmeta
  simp only [validMetadata, Bool.not_eq_true', decide_eq_false_iff_not, not_not] at hmeta
  exact ⟨hmeta, forM_eq_ok.mp h⟩

variable {encodeRecord : Record → List Call} {result : OtlpEncodeResult}

theorem bounded_request (hmeta : metadata.resourceAttributeCount.toNat ≤ 16)
    (hn : records.length ≤ 64) (hrecs : ∀ r ∈ records, Bounded 23496 (encodeRecord r)) :
    Bounded 2000000 [request metadata records encodeRecord] := by
  have hloop := bounded_map (fun r hr => (hrecs r hr).message (by decide) 2#32) hn
  have hscope := (((bounded_scope metadata).message (by decide) 1#32).cons hloop).message
    (by decide) 2#32
  exact ((((bounded_resource hmeta).message (by decide) 1#32).cons hscope).message
    (by decide) 1#32).weaken (by decide)

/-- `encoder` is the contents of a message at or below a call. -/
inductive Submessage (encoder : List Call) : Call → Prop
  | here (field : BitVec 32) : Submessage encoder (.message field encoder)
  | inside {c : Call} {outer : List Call} (field : BitVec 32) (hc : c ∈ outer)
      (h : Submessage encoder c) : Submessage encoder (.message field outer)

theorem length_wire_le {c : Call} {cs : List Call} (h : c ∈ cs) :
    (wire c).length ≤ (wires cs).length := by
  induction cs with
  | nil => exact absurd h List.not_mem_nil
  | cons d rest ih =>
    rw [wires, length_append]
    rcases List.mem_cons.mp h with rfl | hr
    · omega
    · have := ih hr
      omega

/-- The length the writer puts before a message is the number of bytes it then writes. -/
theorem submessage_length {encoder : List Call} {c : Call} (h : Submessage encoder c)
    (hacc : Accepts c) (hlen : (wire c).length < 2 ^ 64) :
    (Sizer.calls encoder {}).2.used.toNat = (wires encoder).length := by
  induction h with
  | here field =>
    rw [wire, length_append] at hlen
    rw [sizer_used hacc (by omega), sizeOf, BitVec.toNat_ofNat]
    exact Nat.mod_eq_of_lt (by omega)
  | inside field hc _ ih =>
    rw [wire, length_append] at hlen
    have hle := length_wire_le hc
    exact ih (acceptsAll_iff.mp hacc _ hc) (by omega)

/-- A writer given the whole output writes a call exactly when its bytes fit. -/
theorem write_call {c : Call} {bound : ℕ} (hbounded : Bounded bound [c]) (hbound : bound < 2 ^ 64)
    (output : List Byte) :
    ((wire c).length ≤ output.length → Writer.call c ⟨output, 0⟩ =
      (true, ⟨wire c ++ output.drop (wire c).length, (wire c).length⟩)) ∧
    (¬ (wire c).length ≤ output.length → (Writer.call c ⟨output, 0⟩).1 = false) := by
  have hlen := hbounded.length
  rw [wires, wires, append_nil] at hlen
  obtain ⟨hf, hfull⟩ := emits_call c hbounded.accepts.1 (by omega) ⟨output, 0⟩ (Nat.zero_le _)
  simp only [zero_add] at hf hfull
  refine ⟨fun h => (hf h).trans ?_, hfull⟩
  unfold Writer.put
  rw [ByteStrings.ByteString.store_eq _ _ _ (by simpa using h)]
  simp

/-- What `encode_request` returns for the result of its one call. -/
def report (valid : Bool × Writer) : Result OtlpEncodeResult × List Byte :=
  if !valid.1 then
    (.error (coreError .exhaustion "OTLP output capacity is exhausted"), valid.2.output)
  else (.ok ⟨valid.2.used⟩, valid.2.output)

theorem encodeValidated_eq (hv : validate check metadata records = .ok ())
    (hn : records.length ≤ 64) (output : List Byte) (hscr : 64 ≤ scratchSize) :
    encodeValidated check encodeRecord metadata records output scratchSize =
      report (Writer.call (request metadata records encodeRecord) ⟨output, 0⟩) := by
  simp only [encodeValidated, hv]
  exact if_neg (by omega)

theorem encodeValidated_guard {output : List Byte}
    (h : (encodeValidated check encodeRecord metadata records output scratchSize).1 = .ok result) :
    validate check metadata records = .ok () ∧ records.length ≤ 64 ∧ 64 ≤ scratchSize := by
  unfold encodeValidated at h
  cases hv : validate check metadata records with
  | error e =>
    rw [hv] at h
    exact nomatch h
  | ok u =>
    rw [hv] at h
    refine ⟨rfl, ?_⟩
    by_cases hguard : records.length > 64 ∨ scratchSize < 64
    · rw [encodeRequest, if_pos hguard] at h
      exact nomatch h
    · omega

namespace Records

/-- What a sizer computes for the whole request. -/
def requestSize (metadata : OtlpMetadata) (records : Records) : ℕ :=
  (Sizer.call (records.request metadata) {}).2.used.toNat

variable {metadata : OtlpMetadata} {records : Records}

theorem bounded (hv : records.validate metadata = .ok ()) (hn : records.size ≤ 64) :
    Bounded 2000000 [records.request metadata] := by
  cases records with
  | traces records =>
    obtain ⟨hmeta, hrecs⟩ := validate_eq_ok hv
    exact bounded_request hmeta hn fun r hr => bounded_trace (hrecs r hr)
  | metrics records =>
    obtain ⟨hmeta, hrecs⟩ := validate_eq_ok hv
    exact bounded_request hmeta hn fun r hr => bounded_metric (hrecs r hr)
  | logs records =>
    obtain ⟨hmeta, hrecs⟩ := validate_eq_ok hv
    exact bounded_request hmeta hn fun r hr => bounded_log (hrecs r hr)

theorem requestSize_eq (hbounded : Bounded 2000000 [records.request metadata]) :
    records.requestSize metadata = (wire (records.request metadata)).length := by
  have hlen := hbounded.length
  rw [wires, wires, append_nil] at hlen
  rw [requestSize, sizer_call _ {} hbounded.accepts.1 (by omega), BitVec.zero_add,
    BitVec.toNat_ofNat, Nat.mod_eq_of_lt (by omega)]

variable {scratchSize : ℕ}

/-- A valid request is encoded by one call on a writer. -/
theorem encode_eq (hv : records.validate metadata = .ok ()) (hn : records.size ≤ 64)
    (output : List Byte) (hscr : 64 ≤ scratchSize) :
    records.encode metadata output scratchSize =
      report (Writer.call (records.request metadata) ⟨output, 0⟩) := by
  cases records with
  | traces records | metrics records | logs records => exact encodeValidated_eq hv hn output hscr

variable {output : List Byte}

theorem encode_of_room (hv : records.validate metadata = .ok ()) (hn : records.size ≤ 64)
    (hscr : 64 ≤ scratchSize) (hr : (wire (records.request metadata)).length ≤ output.length) :
    records.encode metadata output scratchSize = (.ok ⟨(wire (records.request metadata)).length⟩,
        wire (records.request metadata) ++
          output.drop (wire (records.request metadata)).length) := by
  rw [encode_eq hv hn output hscr, (write_call (bounded hv hn) (by decide) output).1 hr]
  rfl

theorem encode_without_room (hv : records.validate metadata = .ok ()) (hn : records.size ≤ 64)
    (hscr : 64 ≤ scratchSize) (hr : ¬ (wire (records.request metadata)).length ≤ output.length) :
    (records.encode metadata output scratchSize).1 =
      .error (coreError .exhaustion "OTLP output capacity is exhausted") := by
  rw [encode_eq hv hn output hscr, report, (write_call (bounded hv hn) (by decide) output).2 hr]
  rfl

/-- A request that was encoded was valid, and its bytes are at the front of the output. -/
theorem encode_eq_ok
    (h : (records.encode metadata output scratchSize).1 = .ok result) :
    records.validate metadata = .ok () ∧ records.size ≤ 64 ∧
      (records.encode metadata output scratchSize).2.take result.bytesWritten =
        wire (records.request metadata) := by
  have hguard : records.validate metadata = .ok () ∧ records.size ≤ 64 ∧ 64 ≤ scratchSize := by
    cases records with
    | traces records | metrics records | logs records => exact encodeValidated_guard h
  obtain ⟨hv, hn, hscr⟩ := hguard
  refine ⟨hv, hn, ?_⟩
  by_cases hr : (wire (records.request metadata)).length ≤ output.length
  · rw [encode_of_room hv hn hscr hr] at h ⊢
    cases h
    exact List.take_left
  · rw [encode_without_room hv hn hscr hr] at h
    exact nomatch h

/-- A request is written exactly when the output has room for the bytes the sizer
counts. The bytes are `wire` of the request whatever the output is, and each length in
front of a message is the number of bytes of that message. -/
theorem encode_exact (metadata : OtlpMetadata) (records : Records)
    (hvalid : records.validate metadata = .ok ()) (hcount : records.size ≤ 64)
    (output : List Byte) (scratchSize : ℕ) (hscratch : 64 ≤ scratchSize) :
    ((∃ result, (records.encode metadata output scratchSize).1 = .ok result) ↔
      records.requestSize metadata ≤ output.length) ∧
    (∀ result, (records.encode metadata output scratchSize).1 = .ok result →
      result.bytesWritten = records.requestSize metadata ∧
      (records.encode metadata output scratchSize).2 =
        wire (records.request metadata) ++ output.drop (records.requestSize metadata)) ∧
    (wire (records.request metadata)).length = records.requestSize metadata ∧
    ∀ encoder, Submessage encoder (records.request metadata) →
      (Sizer.calls encoder {}).2.used.toNat = (wires encoder).length := by
  have hbounded := bounded hvalid hcount
  have hlength := hbounded.length
  rw [wires, wires, append_nil] at hlength
  rw [requestSize_eq hbounded]
  by_cases hroom : (wire (records.request metadata)).length ≤ output.length
  · rw [encode_of_room hvalid hcount hscratch hroom]
    refine ⟨⟨fun _ => hroom, fun _ => ⟨_, rfl⟩⟩, ?_, rfl, ?_⟩
    · rintro result hresult
      cases hresult
      exact ⟨rfl, rfl⟩
    · exact fun encoder hsub => submessage_length hsub hbounded.accepts.1 (by omega)
  · rw [encode_without_room hvalid hcount hscratch hroom]
    refine ⟨⟨(fun ⟨_, hresult⟩ => nomatch hresult), fun h => absurd h hroom⟩, ?_, rfl, ?_⟩
    · exact fun result hresult => nomatch hresult
    · exact fun encoder hsub => submessage_length hsub hbounded.accepts.1 (by omega)

/-- One trace with an event and an attribute, in an output that just holds it. -/
theorem encode_exact_trace :
    let text : {capacity : ℕ} → 1 ≤ capacity → OtlpText capacity := fun h => ⟨[97#8], h, rfl⟩
    let item : OtlpAttribute := ⟨text (by decide), text (by decide)⟩
    let metadata : OtlpMetadata := ⟨text (by decide), text (by decide), text (by decide),
      .replicate 16 item, 1#8⟩
    let event : OtlpEvent := ⟨1#64, text (by decide), .replicate 8 item, 1#8⟩
    let records : Records := .traces [⟨.replicate 16 1#8, .replicate 8 1#8, text (by decide),
      1#64, 2#64, .replicate 16 item, 1#8, .replicate 8 event, 1#8⟩]
    ∃ result, (records.encode metadata
      (List.replicate (records.requestSize metadata) 0#8) 64).1 = .ok result :=
  (encode_exact _ _ rfl (by decide) _ 64 (by decide)).1.mpr (by rw [List.length_replicate])

end Records

end Laghu.OtlpEncoding
