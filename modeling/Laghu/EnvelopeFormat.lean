import Laghu.BinaryEnvelopes

/-!
The wire format as a function from envelopes to byte strings. Encoding writes
it and decoding accepts nothing else.
-/

namespace Laghu.BinaryEnvelopes

open Contract CheckedArithmetic BigEndian ByteStrings ByteString List
open BitVec (lt_def ofNat toNat_ofNat)

/-- The twelve header bytes that the checksum covers. -/
def coveredHeader (e : BinaryEnvelope) : List Byte :=
  magic ++ encodeBigEndian binaryEnvelopeVersion ++ encodeBigEndian e.kind ++
    encodeBigEndian (e.payload.size.setWidth 32 : BitVec 32)

def checksum (e : BinaryEnvelope) : BitVec 32 :=
  crc32cCastagnoli (coveredHeader e) e.payload.bytes

def wireFormat (e : BinaryEnvelope) : List Byte :=
  coveredHeader e ++ encodeBigEndian (checksum e) ++ e.payload.bytes

/-- What `encode_binary_envelope` has written into some output: the first bytes
of it, as many as it returned. -/
def Encodes (e : BinaryEnvelope) (bytes : List Byte) : Prop :=
  ∃ output n output', encodeBinaryEnvelope e output = (.ok n, output') ∧
    bytes = output'.bytes.take n.toNat

variable {e : BinaryEnvelope}

theorem length_coveredHeader (e : BinaryEnvelope) : (coveredHeader e).length = 12 := by
  simp [coveredHeader, magic]

theorem length_wireFormat (e : BinaryEnvelope) :
    (wireFormat e).length = 16 + e.payload.bytes.length := by
  simp only [wireFormat, length_append, length_coveredHeader, length_encodeBigEndian]

/-- Overwriting a middle part of equal length. -/
theorem store_middle {before after bytes : List Byte} {start : ℕ} (old : List Byte)
    (hstart : before.length = start) (h : old.length = bytes.length) :
    store (before ++ (old ++ after)) start bytes = before ++ bytes ++ after := by
  subst hstart
  rw [store_eq _ _ _ (by simp only [length_append]; omega), take_left, ← h,
    ← length_append, ← append_assoc before old after, drop_left]

theorem encodeHeader_eq (e : BinaryEnvelope) :
    encodeHeader e = coveredHeader e ++ encodeBigEndian (checksum e) := by
  have hstore : store (coveredHeader e ++ replicate 4 0#8) 12 (encodeBigEndian (checksum e)) =
      coveredHeader e ++ encodeBigEndian (checksum e) ++ [] :=
    store_middle (replicate 4 0#8) (length_coveredHeader e) (by simp)
  rw [append_nil] at hstore
  exact hstore

theorem binaryEnvelopeEncodedSize_eq_ok (payloadSize n : Size) :
    binaryEnvelopeEncodedSize payloadSize = .ok n ↔
      payloadSize.toNat < 2 ^ 32 ∧ n.toNat = 16 + payloadSize.toNat := by
  have hh : binaryEnvelopeHeaderSize.toNat = 16 := rfl
  unfold binaryEnvelopeEncodedSize
  split
  · rename_i h
    rw [gt_iff_lt, lt_def] at h
    have hmax : (0xFFFFFFFF#64).toNat = 2 ^ 32 - 1 := rfl
    simp only [reduceCtorEq, false_iff]
    omega
  rename_i h
  rw [gt_iff_lt, lt_def] at h
  have hmax : (0xFFFFFFFF#64).toNat = 2 ^ 32 - 1 := rfl
  have hsum : (binaryEnvelopeHeaderSize + payloadSize).toNat = 16 + payloadSize.toNat := by
    rw [BitVec.toNat_add, hh, Nat.mod_eq_of_lt (by omega)]
  rw [checkedAdd_eq, if_pos (by omega), Except.ok.injEq, ← BitVec.toNat_inj, hsum]
  omega

theorem encodeChecks_eq_ok (e : BinaryEnvelope) (outputSize n : Size) :
    encodeChecks e outputSize = .ok n ↔ e.kind ≠ 0#16 ∧ e.payload.bytes.length < 2 ^ 32 ∧
        n.toNat = 16 + e.payload.bytes.length ∧ n.toNat ≤ outputSize.toNat := by
  simp only [encodeChecks, bind_eq_ok, require_eq_ok, binaryEnvelopeEncodedSize_eq_ok, toNat_size,
    lt_def, not_lt]
  constructor
  · rintro ⟨_, hk, m, ⟨hlen, hm⟩, _, hr, heq⟩
    cases heq
    exact ⟨hk, hlen, hm, hr⟩
  · rintro ⟨hk, hlen, hn, hr⟩
    exact ⟨(), hk, n, ⟨hlen, hn⟩, (), hr, rfl⟩

/-- The two writes put the wire format at the start of the output. -/
theorem bytes_written (e : BinaryEnvelope) (output : ByteString)
    (h : 16 + e.payload.bytes.length ≤ output.bytes.length) :
    ((output.write 0 (encodeHeader e)).write 16 e.payload.bytes).bytes =
      wireFormat e ++ output.bytes.drop (16 + e.payload.bytes.length) := by
  have hh : (encodeHeader e).length = 16 := by
    rw [encodeHeader_eq, length_append, length_coveredHeader, length_encodeBigEndian]
  have hf : store output.bytes 0 (encodeHeader e) = encodeHeader e ++ output.bytes.drop 16 := by
    rw [store_eq _ _ _ (by omega), take_zero, nil_append, hh, zero_add]
  have hsec : store (encodeHeader e ++ output.bytes.drop 16) 16 e.payload.bytes =
      encodeHeader e ++ e.payload.bytes ++ (output.bytes.drop 16).drop e.payload.bytes.length := by
    conv_lhs => rw [← take_append_drop e.payload.bytes.length (output.bytes.drop 16)]
    apply store_middle _ hh
    rw [length_take, length_drop]
    omega
  rw [bytes_write, bytes_write, hf, hsec, drop_drop, encodeHeader_eq, wireFormat]

/-- Encoding succeeds exactly when the wire format fits, and puts it at the
start of the output. -/
theorem encodeBinaryEnvelope_ok {n : Size} {output output' : ByteString}
    (h : encodeBinaryEnvelope e output = (.ok n, output')) :
    e.kind ≠ 0#16 ∧ e.payload.bytes.length < 2 ^ 32 ∧ n.toNat = 16 + e.payload.bytes.length ∧
      output'.bytes = wireFormat e ++ output.bytes.drop (16 + e.payload.bytes.length) := by
  cases hchecks : encodeChecks e output.size with
  | error err =>
    rw [encodeBinaryEnvelope, hchecks] at h
    cases h
  | ok m =>
    rw [encodeBinaryEnvelope, hchecks] at h
    cases h
    obtain ⟨hk, hlen, hn, hr⟩ := (encodeChecks_eq_ok e output.size n).mp hchecks
    rw [toNat_size] at hr
    exact ⟨hk, hlen, hn, bytes_written e output (by omega)⟩

theorem encodes_iff (e : BinaryEnvelope) (bytes : List Byte) :
    Encodes e bytes ↔ e.kind ≠ 0#16 ∧ e.payload.bytes.length < 2 ^ 32 ∧ bytes = wireFormat e := by
  have hwire := length_wireFormat e
  constructor
  · rintro ⟨output, n, output', hrun, hb⟩
    obtain ⟨hk, hlen, hn, hw⟩ := encodeBinaryEnvelope_ok hrun
    refine ⟨hk, hlen, ?_⟩
    rw [hb, hw, take_left' (by omega)]
  rintro ⟨hk, hlen, hb⟩
  let output : ByteString :=
    { bytes := replicate (16 + e.payload.bytes.length) 0#8
      fits := by rw [length_replicate]; omega }
  let n : Size := ofNat 64 (16 + e.payload.bytes.length)
  have hn : n.toNat = 16 + e.payload.bytes.length := by
    rw [toNat_ofNat, Nat.mod_eq_of_lt (by omega)]
  have hout : output.bytes.length = 16 + e.payload.bytes.length := length_replicate
  have hchecks : encodeChecks e output.size = .ok n := by
    rw [encodeChecks_eq_ok, toNat_size]
    exact ⟨hk, hlen, hn, by omega⟩
  refine ⟨output, n, _, by rw [encodeBinaryEnvelope, hchecks], ?_⟩
  rw [bytes_written e output (by omega), take_left' (by omega), hb]

/-- The header fields in the order in which they stand on the wire. -/
def Fields.bytes (f : Fields) : List Byte :=
  encodeBigEndian f.version ++ encodeBigEndian f.kind ++ encodeBigEndian f.payloadLength ++
    encodeBigEndian f.checksum

theorem Fields.bytes_injective {f g : Fields} (h : f.bytes = g.bytes) : f = g := by
  obtain ⟨h, hchecksum⟩ := append_inj' h (by simp)
  obtain ⟨h, hlen⟩ := append_inj' h (by simp)
  obtain ⟨hver, hk⟩ := append_inj' h (by simp)
  cases f
  cases g
  rw [Fields.mk.injEq]
  exact ⟨encodeBigEndian_injective rfl hver, encodeBigEndian_injective rfl hk,
    encodeBigEndian_injective rfl hlen, encodeBigEndian_injective rfl hchecksum⟩

variable {header input : ByteString}

section

variable (h : header.bytes.length = 16)
include h

theorem readFields_total : ∃ f, readFields header = .ok f := by
  obtain ⟨v, hv⟩ := header.slice_total 4#64 2#64 (by rw [h]; decide)
  obtain ⟨k, hk⟩ := header.slice_total 6#64 2#64 (by rw [h]; decide)
  obtain ⟨l, hl⟩ := header.slice_total 8#64 4#64 (by rw [h]; decide)
  obtain ⟨c, hc⟩ := header.slice_total 12#64 4#64 (by rw [h]; decide)
  have hfield : ∀ {w : ℕ} (offset length : Size) (t : ByteString),
      header.slice offset length = .ok t → offset.toNat + length.toNat ≤ 16 →
      length.toNat = w / 8 → ∃ value, decodeBigEndian w t = .ok value := by
    intro w offset length t ht hend hwidth
    have hb := ((header.slice_eq_ok t offset length).mp ht).2
    rw [decodeBigEndian, if_neg]
    · exact ⟨_, rfl⟩
    · rw [toNat_size, hb, length_take, length_drop, h]
      omega
  obtain ⟨version, hver⟩ := hfield (w := 16) _ _ v hv (by decide) rfl
  obtain ⟨kind, hkind⟩ := hfield (w := 16) _ _ k hk (by decide) rfl
  obtain ⟨payloadLength, hlen⟩ := hfield (w := 32) _ _ l hl (by decide) rfl
  obtain ⟨checksum, hchecksum⟩ := hfield (w := 32) _ _ c hc (by decide) rfl
  refine ⟨{ version, kind, payloadLength, checksum }, ?_⟩
  simp only [readFields, bind_eq_ok, orError_eq_ok]
  exact ⟨v, hv, k, hk, l, hl, c, hc, version, hver, kind, hkind, payloadLength, hlen,
    checksum, hchecksum, rfl⟩

theorem readFields_bytes {f : Fields} (hread : readFields header = .ok f) :
    header.bytes.drop 4 = f.bytes := by
  simp only [readFields, bind_eq_ok, orError_eq_ok, slice_eq_ok] at hread
  obtain ⟨v, ⟨_, hv⟩, k, ⟨_, hk⟩, l, ⟨_, hl⟩, c, ⟨_, hc⟩, version, hver, kind, hkind,
    payloadLength, hlen, checksum, hchecksum, hf⟩ := hread
  rw [decodeBigEndian_eq_ok (by rfl)] at hver hkind hlen hchecksum
  cases hf
  rw [Fields.bytes, ← hver, ← hkind, ← hlen, ← hchecksum, hv, hk, hl, hc]
  change header.bytes.drop 4 = (header.bytes.drop 4).take 2 ++ (header.bytes.drop 6).take 2 ++
    (header.bytes.drop 8).take 4 ++ (header.bytes.drop 12).take 4
  have hend : (header.bytes.drop 12).take 4 = header.bytes.drop 12 := by
    apply take_of_length_le
    rw [length_drop]
    omega
  rw [hend, append_assoc, append_assoc]
  conv_lhs =>
    rw [← take_append_drop 2 (header.bytes.drop 4), drop_drop,
      ← take_append_drop 2 (header.bytes.drop 6), drop_drop,
      ← take_append_drop 4 (header.bytes.drop 8), drop_drop]

/-- The fields of a header are those whose bytes follow the magic. -/
theorem readFields_eq_ok (f : Fields) :
    readFields header = .ok f ↔ header.bytes.drop 4 = f.bytes := by
  constructor
  · exact readFields_bytes h
  intro hb
  obtain ⟨g, hg⟩ := readFields_total h
  rw [hg, Fields.bytes_injective ((readFields_bytes h hg).symm.trans hb)]

end

theorem readPayload_eq_ok (input : ByteString) (m : Size) (f : Fields) (payload : ByteString) :
    readPayload input m f = .ok payload ↔ f.payloadLength.toNat ≤ m.toNat ∧
        input.bytes.length = 16 + f.payloadLength.toNat ∧ payload.bytes = input.bytes.drop 16 ∧
        crc32cCastagnoli (input.bytes.take 12) payload.bytes = f.checksum := by
  simp only [readPayload, bind_eq_ok, require_eq_ok, orError_eq_ok, slice_eq_ok,
    binaryEnvelopeEncodedSize_eq_ok, checkedNarrow_eq_ok (show 32 ≤ 64 by decide), gt_iff_lt,
    lt_def, not_lt, toNat_size]
  have hheader : binaryEnvelopeHeaderSize.toNat = 16 := rfl
  have hcovered : (12#64).toNat = 12 := rfl
  have h0 : (0#64).toNat = 0 := rfl
  constructor
  · rintro ⟨size, hsize, _, hmax, n, ⟨_, hn⟩, _, hlow, _, hhigh, p, ⟨_, hp⟩, h, ⟨_, hh⟩, _, hcrc,
      hpay⟩
    cases hpay
    have hall : input.bytes.length = 16 + f.payloadLength.toNat := by omega
    rw [h0, drop_zero, hcovered] at hh
    refine ⟨by omega, hall, ?_, by rw [← hh]; exact hcrc⟩
    rw [hp, hheader]
    apply take_of_length_le
    rw [length_drop]
    omega
  rintro ⟨hmax, hall, hpay, hcrc⟩
  have hwide := f.payloadLength.isLt
  let size : Size := f.payloadLength.setWidth 64
  have hsize : size.toNat = f.payloadLength.toNat := by
    rw [BitVec.toNat_setWidth, Nat.mod_eq_of_lt (by omega)]
  let n : Size := ofNat 64 (16 + f.payloadLength.toNat)
  have hn : n.toNat = 16 + f.payloadLength.toNat := by
    rw [toNat_ofNat, Nat.mod_eq_of_lt (by omega)]
  obtain ⟨h, hslice⟩ := input.slice_total 0#64 12#64 (by omega)
  have hh := (input.slice_eq_ok h 0#64 12#64).mp hslice
  refine ⟨size, hsize, (), by omega, n, ⟨by omega, by omega⟩, (), by omega, (), by omega, payload,
    ⟨by omega, ?_⟩, h, hh, (), ?_, rfl⟩
  · rw [hpay, hheader, take_of_length_le]
    rw [length_drop]
    omega
  · rw [hh.2, h0, drop_zero, hcovered]
    exact hcrc

theorem fromParts_eq_ok (kind : BitVec 16) (payload : ByteString) (e : BinaryEnvelope) :
    BinaryEnvelope.fromParts kind payload = .ok e ↔
      kind ≠ 0#16 ∧ e.kind = kind ∧ e.payload = payload := by
  unfold BinaryEnvelope.fromParts
  by_cases h : kind = 0#16
  · simp [h]
  rw [dif_neg h, Except.ok.injEq]
  constructor
  · intro heq
    rw [← heq]
    exact ⟨h, rfl, rfl⟩
  rintro ⟨_, hk, hpay⟩
  cases e
  cases hk
  cases hpay
  rfl

/-- The header fields of an envelope. -/
def fieldsOf (e : BinaryEnvelope) : Fields where
  version := binaryEnvelopeVersion
  kind := e.kind
  payloadLength := e.payload.size.setWidth 32
  checksum := checksum e

theorem wireFormat_eq (e : BinaryEnvelope) :
    wireFormat e = magic ++ (fieldsOf e).bytes ++ e.payload.bytes := by
  simp only [wireFormat, coveredHeader, Fields.bytes, fieldsOf, append_assoc]

theorem length_fields (f : Fields) : f.bytes.length = 12 := by
  simp [Fields.bytes]

theorem toNat_payloadLength (h : e.payload.bytes.length < 2 ^ 32) :
    (fieldsOf e).payloadLength.toNat = e.payload.bytes.length := by
  rw [fieldsOf, BitVec.toNat_setWidth, toNat_size, Nat.mod_eq_of_lt h]

theorem take_twelve (e : BinaryEnvelope) : (wireFormat e).take 12 = coveredHeader e := by
  rw [wireFormat, append_assoc, take_left' (length_coveredHeader e)]

theorem length_header (f : Fields) : (magic ++ f.bytes).length = 16 := by
  rw [length_append, length_fields]
  rfl

theorem take_sixteen (e : BinaryEnvelope) :
    (wireFormat e).take 16 = magic ++ (fieldsOf e).bytes := by
  rw [wireFormat_eq, take_left' (length_header _)]

theorem drop_sixteen (e : BinaryEnvelope) : (wireFormat e).drop 16 = e.payload.bytes := by
  rw [wireFormat_eq, drop_left' (length_header _)]

/-- Fields that were read in front of the payload of `e`, with the version and
kind of `e` and a checksum that matches, are the fields of `e`. -/
theorem fields_eq {f : Fields} (hver : f.version = binaryEnvelopeVersion)
    (hk : f.kind = e.kind) (hlen : e.payload.bytes.length = f.payloadLength.toNat)
    (hinput : input.bytes = magic ++ f.bytes ++ e.payload.bytes)
    (hcrc : crc32cCastagnoli (input.bytes.take 12) e.payload.bytes = f.checksum) :
    f = fieldsOf e := by
  have hwide := f.payloadLength.isLt
  have hpay : f.payloadLength = (fieldsOf e).payloadLength := by
    apply BitVec.eq_of_toNat_eq
    rw [toNat_payloadLength (by omega), hlen]
  have hcovered : input.bytes.take 12 = coveredHeader e := by
    have hsplit : input.bytes = coveredHeader e ++
        (encodeBigEndian f.checksum ++ e.payload.bytes) := by
      rw [hinput, Fields.bytes, hver, hk, hpay]
      simp only [coveredHeader, fieldsOf, append_assoc]
    rw [hsplit, take_left' (length_coveredHeader e)]
  rw [hcovered] at hcrc
  cases f
  exact congr (congr (congr (congrArg Fields.mk hver) hk) hpay) hcrc.symm

/-- Decoding accepts exactly the wire format of the envelope it returns. -/
theorem decodeEnvelope_eq_ok (input : ByteString) (m : Size) (e : BinaryEnvelope) :
    decodeEnvelope input m = .ok e ↔
      e.kind ≠ 0#16 ∧ e.payload.bytes.length ≤ m.toNat ∧ e.payload.bytes.length < 2 ^ 32 ∧
        input.bytes = wireFormat e := by
  have hsixteen : binaryEnvelopeHeaderSize.toNat = 16 := rfl
  have h0 : (0#64).toNat = 0 := rfl
  simp only [decodeEnvelope, bind_eq_ok, require_eq_ok, slice_eq_ok, readPayload_eq_ok,
    fromParts_eq_ok, lt_def, not_lt, toNat_size, hsixteen, h0, drop_zero]
  constructor
  · rintro ⟨_, hsize, header, ⟨_, hh⟩, _, hmagic, f, hf, _, hver, _, hnz, payload,
      ⟨hmax, hall, hpay, hcrc⟩, _, hk, hsame⟩
    have hlen : header.bytes.length = 16 := by
      rw [hh, length_take]
      omega
    rw [readFields_eq_ok hlen] at hf
    subst hsame
    have hinput : input.bytes = magic ++ f.bytes ++ e.payload.bytes := by
      rw [← hmagic, ← hf, take_append_drop, hh, hpay, take_append_drop]
    have hn : e.payload.bytes.length = f.payloadLength.toNat := by
      rw [hpay, length_drop]
      omega
    have hwide := f.payloadLength.isLt
    have hfields := fields_eq hver hk.symm hn hinput hcrc
    refine ⟨hk ▸ hnz, by omega, by omega, ?_⟩
    rw [hinput, hfields, wireFormat_eq]
  rintro ⟨hk, hmax, hlen, hinput⟩
  have hn := toNat_payloadLength hlen
  have hall := length_wireFormat e
  rw [← hinput] at hall
  obtain ⟨header, hslice⟩ := input.slice_total 0#64 binaryEnvelopeHeaderSize (by omega)
  obtain ⟨_, hb⟩ := (input.slice_eq_ok header _ _).mp hslice
  rw [h0, drop_zero, hsixteen] at hb
  have hh : header.bytes = magic ++ (fieldsOf e).bytes := by
    rw [hb, hinput, take_sixteen]
  have hmagic : header.bytes.take 4 = magic := by
    rw [hh]
    exact take_left' rfl
  have hfields : header.bytes.drop 4 = (fieldsOf e).bytes := by
    rw [hh]
    exact drop_left' rfl
  have hread := (readFields_eq_ok (by rw [hh, length_header]) _).mpr hfields
  have hpay : e.payload.bytes = input.bytes.drop 16 := by
    rw [hinput, drop_sixteen]
  have hcrc : crc32cCastagnoli (input.bytes.take 12) e.payload.bytes = checksum e := by
    rw [hinput, take_twelve]
    rfl
  exact ⟨(), by omega, header, ⟨by omega, hb⟩, (), hmagic, fieldsOf e, hread, (), rfl, (),
    hk, e.payload, ⟨by omega, by omega, hpay, hcrc⟩, hk, rfl, rfl⟩

variable {e e' : BinaryEnvelope}

theorem envelope_eq (hk : e.kind = e'.kind) (hpay : e.payload.bytes = e'.payload.bytes) :
    e = e' := by
  cases e
  cases e'
  cases hk
  cases ext_bytes hpay
  rfl

/-- No wire format continues another one. -/
theorem wireFormat_prefix_free {rest : List Byte} (h : wireFormat e ++ rest = wireFormat e')
    (hlen : e.payload.bytes.length < 2 ^ 32) (hlen' : e'.payload.bytes.length < 2 ^ 32) :
    rest = [] ∧ e = e' := by
  rw [wireFormat_eq, wireFormat_eq, append_assoc] at h
  obtain ⟨hh, hbody⟩ := append_inj h (by rw [length_header, length_header])
  have hf := Fields.bytes_injective (append_cancel_left hh)
  have hn := toNat_payloadLength hlen
  rw [hf, toNat_payloadLength hlen'] at hn
  have hr : rest = [] := by
    have hsum := congrArg length hbody
    rw [length_append] at hsum
    exact length_eq_zero_iff.mp (by omega)
  refine ⟨hr, ?_⟩
  rw [hr, append_nil] at hbody
  exact envelope_eq (congrArg Fields.kind hf) hbody

theorem wireFormat_injective (h : wireFormat e = wireFormat e')
    (hlen : e.payload.bytes.length < 2 ^ 32) (hlen' : e'.payload.bytes.length < 2 ^ 32) :
    e = e' := by
  have hsame : wireFormat e ++ [] = wireFormat e' := by rw [append_nil, h]
  exact (wireFormat_prefix_free hsame hlen hlen').2

theorem decodeBinaryEnvelope_accepts (input : ByteString) (m : Size) (output : BinaryEnvelope) :
    (decodeBinaryEnvelope input m output).1 = .ok () ↔ ∃ e, decodeEnvelope input m = .ok e := by
  unfold decodeBinaryEnvelope
  cases decodeEnvelope input m <;> simp

theorem decodeBinaryEnvelope_rejects {m : Size}
    (h : ∀ e, input.bytes = wireFormat e → e.payload.bytes.length < 2 ^ 32 → False)
    (output : BinaryEnvelope) : ∃ err, (decodeBinaryEnvelope input m output).1 = .error err := by
  unfold decodeBinaryEnvelope
  cases hrun : decodeEnvelope input m with
  | error err => exact ⟨err, rfl⟩
  | ok e =>
    obtain ⟨_, _, hlen, hinput⟩ := (decodeEnvelope_eq_ok input m e).mp hrun
    exact (h e hinput hlen).elim

/-- Decoding accepts exactly what encoding writes and returns what was encoded,
a rejected input leaves the output alone, encodings are unambiguous and never
extend one another, and encoding into too small an output writes nothing. -/
theorem envelope_format : (∀ input m output, (decodeBinaryEnvelope input m output).1 = .ok () ↔
      ∃ e : BinaryEnvelope, e.kind ≠ 0#16 ∧
        e.payload.bytes.length ≤ min m.toNat (2 ^ 32 - 1) ∧ Encodes e input.bytes) ∧
    (∀ input m output e, (decodeBinaryEnvelope input m output).1 = .ok () →
      Encodes e input.bytes → (decodeBinaryEnvelope input m output).2 = e) ∧
    (∀ input m output err, (decodeBinaryEnvelope input m output).1 = .error err →
      (decodeBinaryEnvelope input m output).2 = output) ∧
    (∀ e e' bytes, Encodes e bytes → Encodes e' bytes → e = e') ∧
    (∀ e rest, ∀ input : ByteString, Encodes e (input.bytes ++ rest) → rest ≠ [] →
      ∀ m output, ∃ err, (decodeBinaryEnvelope input m output).1 = .error err) ∧
    (∀ e bytes rest, ∀ input : ByteString, Encodes e bytes → input.bytes = bytes ++ rest →
      rest ≠ [] → ∀ m output, ∃ err, (decodeBinaryEnvelope input m output).1 = .error err) ∧
    ∀ (e : BinaryEnvelope) (output : ByteString),
      output.bytes.length < 16 + e.payload.bytes.length →
      ∃ err, encodeBinaryEnvelope e output = (.error err, output) := by
  refine ⟨?_, ?_, ?_, ?_, ?_, ?_, ?_⟩
  · intro input m output
    rw [decodeBinaryEnvelope_accepts]
    apply exists_congr
    intro e
    rw [decodeEnvelope_eq_ok, encodes_iff, Nat.le_min]
    constructor
    · rintro ⟨hkind, hmax, hlength, hinput⟩
      exact ⟨hkind, ⟨hmax, by omega⟩, hkind, hlength, hinput⟩
    · rintro ⟨hkind, ⟨hmax, _⟩, _, hlength, hinput⟩
      exact ⟨hkind, hmax, hlength, hinput⟩
  · intro input m output e hok hencodes
    obtain ⟨e', hrun⟩ := (decodeBinaryEnvelope_accepts input m output).mp hok
    obtain ⟨_, _, hlength', hinput'⟩ := (decodeEnvelope_eq_ok input m e').mp hrun
    obtain ⟨_, hlength, hinput⟩ := (encodes_iff e input.bytes).mp hencodes
    rw [decodeBinaryEnvelope, hrun]
    exact wireFormat_injective (hinput'.symm.trans hinput) hlength' hlength
  · intro input m output err herror
    unfold decodeBinaryEnvelope at herror ⊢
    cases hrun : decodeEnvelope input m with
    | error _ => rfl
    | ok e =>
      rw [hrun] at herror
      cases herror
  · intro e e' bytes h h'
    obtain ⟨_, hlength, hbytes⟩ := (encodes_iff e bytes).mp h
    obtain ⟨_, hlength', hbytes'⟩ := (encodes_iff e' bytes).mp h'
    exact wireFormat_injective (hbytes.symm.trans hbytes') hlength hlength'
  · intro e rest input h hrest m output
    obtain ⟨_, hlength, hbytes⟩ := (encodes_iff e _).mp h
    apply decodeBinaryEnvelope_rejects
    intro e' hinput hlength'
    rw [hinput] at hbytes
    exact hrest (wireFormat_prefix_free hbytes hlength' hlength).1
  · intro e bytes rest input h hinput hrest m output
    obtain ⟨_, hlength, hbytes⟩ := (encodes_iff e bytes).mp h
    apply decodeBinaryEnvelope_rejects
    intro e' hinput' hlength'
    rw [hinput, hbytes] at hinput'
    exact hrest (wireFormat_prefix_free hinput' hlength hlength').1
  intro e output hsmall
  cases hchecks : encodeChecks e output.size with
  | error err => exact ⟨err, by rw [encodeBinaryEnvelope, hchecks]⟩
  | ok n =>
    obtain ⟨_, _, hn, hroom⟩ := (encodeChecks_eq_ok e output.size n).mp hchecks
    rw [toNat_size] at hroom
    omega

def sampleEnvelope : BinaryEnvelope := { kind := 7#16, payload := { bytes := [1#8, 2#8] } }

def sampleInput : ByteString where
  bytes := magic ++ [0#8, 1#8, 0#8, 7#8, 0#8, 0#8, 0#8, 2#8, 0x0A#8, 0xED#8, 0x8C#8, 0x32#8,
    1#8, 2#8]

theorem sampleInput_encodes : Encodes sampleEnvelope sampleInput.bytes :=
  (encodes_iff _ _).mpr ⟨by decide, by decide, by decide +kernel⟩

theorem envelope_format_sample : (decodeBinaryEnvelope sampleInput 2#64 {}).1 = .ok () :=
  (envelope_format.1 sampleInput 2#64 {}).mpr ⟨sampleEnvelope, by decide, by decide,
    sampleInput_encodes⟩

end Laghu.BinaryEnvelopes
