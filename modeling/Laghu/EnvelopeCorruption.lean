import Laghu.CrcPolynomials
import Laghu.EnvelopeFormat

/-!
Damaged envelopes. The checksum loop is a shift register, and its polynomial has
the top bit set, so damage to four consecutive covered bytes always changes the
checksum; damage that reaches the checksum field itself is too short to reach
the kind as well.
-/

namespace Laghu.BinaryEnvelopes

open Contract BigEndian ByteStrings ByteString ShiftRegisters List

theorem crc32cBit_eq (s : BitVec 32) : crc32cBit s = step 0x82F63B78#32 s := by
  have hlow : s &&& 1#32 = if s.getLsbD 0 then 1#32 else 0#32 := by
    rw [BitVec.and_one_eq_setWidth_ofBool_getLsbD]
    cases s.getLsbD 0 <;> rfl
  have hmask : 0x82F63B78#32 &&& (0#32 - (s &&& 1#32)) =
      if s.getLsbD 0 then 0x82F63B78#32 else 0#32 := by
    rw [hlow]
    cases s.getLsbD 0 <;> decide
  rw [crc32cBit, hmask, step]

theorem crc32cExtend_eq (s : BitVec 32) (bytes : List Byte) :
    crc32cExtend s bytes = bytes.foldl (absorb 0x82F63B78#32) s := by
  unfold crc32cExtend
  congr 1
  funext state byte
  rw [crc32cByte, absorb, show crc32cBit = step 0x82F63B78#32 from funext crc32cBit_eq]

theorem crc32cCastagnoli_eq (first second : List Byte) : crc32cCastagnoli first second =
      (first ++ second).foldl (absorb 0x82F63B78#32) 0xFFFFFFFF#32 ^^^ 0xFFFFFFFF#32 := by
  rw [crc32cCastagnoli, crc32cExtend_eq, crc32cExtend_eq, foldl_append]

/-- Equal checksums of strings that differ in at most four consecutive bytes. -/
theorem checksum_window_eq {first second first' second' before window window' after : List Byte}
    (hcrc : crc32cCastagnoli first second = crc32cCastagnoli first' second')
    (hsplit : first ++ second = before ++ window ++ after)
    (hsplit' : first' ++ second' = before ++ window' ++ after)
    (hlen : window.length = window'.length) (hf : window.length ≤ 4) : window = window' := by
  rw [crc32cCastagnoli_eq, crc32cCastagnoli_eq, hsplit, hsplit', BitVec.xor_left_inj] at hcrc
  exact window_eq (by decide) _ hlen (by omega) hcrc

/-- Both strings are equal outside the window. -/
def AgreeOutside (start width : ℕ) (sent received : List Byte) : Prop :=
  ∀ i, i < start ∨ start + width ≤ i → received[i]? = sent[i]?

section Windows

variable {start width : ℕ} {sent received : List Byte}

variable (h : AgreeOutside start width sent received)
include h

theorem AgreeOutside.slice_eq {i n : ℕ} (hoff : i + n ≤ start ∨ start + width ≤ i) :
    (received.drop i).take n = (sent.drop i).take n := by
  apply ext_getElem?
  intro j
  rw [getElem?_take, getElem?_take, getElem?_drop, getElem?_drop]
  split
  · exact h (i + j) (by omega)
  · rfl

theorem AgreeOutside.drop_eq {i : ℕ} (hoff : start + width ≤ i) :
    received.drop i = sent.drop i := by
  apply ext_getElem?
  intro j
  rw [getElem?_drop, getElem?_drop]
  exact h (i + j) (by omega)

theorem AgreeOutside.drop {i : ℕ} (hi : i ≤ start) :
    AgreeOutside (start - i) width (sent.drop i) (received.drop i) := by
  intro j hj
  rw [getElem?_drop, getElem?_drop]
  exact h (i + j) (by omega)

/-- The two strings around the window. -/
theorem AgreeOutside.split (hlen : received.length = sent.length) :
    ∃ before window window' after : List Byte, sent = before ++ window ++ after ∧
      received = before ++ window' ++ after ∧ window.length = window'.length ∧
      window.length ≤ width := by
  have hpre : received.take start = sent.take start := by
    have hslice := h.slice_eq (i := 0) (n := start) (by omega)
    rwa [drop_zero, drop_zero] at hslice
  have ha := h.drop_eq (Nat.le_refl (start + width))
  refine ⟨sent.take start, (sent.drop start).take width, (received.drop start).take width,
    sent.drop (start + width), ?_, ?_, ?_, ?_⟩
  · rw [append_assoc, ← drop_drop, take_append_drop, take_append_drop]
  · rw [← hpre, ← ha, append_assoc, ← drop_drop, take_append_drop, take_append_drop]
  · rw [length_take, length_take, length_drop, length_drop, hlen]
  · rw [length_take]
    omega

end Windows

theorem kind_slice (e : BinaryEnvelope) :
    ((wireFormat e).drop 6).take 2 = encodeBigEndian e.kind := by
  have hsplit : wireFormat e = (magic ++ encodeBigEndian binaryEnvelopeVersion) ++
      (encodeBigEndian e.kind ++ (encodeBigEndian (fieldsOf e).payloadLength ++
        (encodeBigEndian (checksum e) ++ e.payload.bytes))) := by
    simp only [wireFormat, coveredHeader, fieldsOf, append_assoc]
  rw [hsplit, drop_left' (by simp [magic]), take_left' (by simp)]

theorem checksum_slice (e : BinaryEnvelope) :
    ((wireFormat e).drop 12).take 4 = encodeBigEndian (checksum e) := by
  rw [wireFormat, append_assoc, drop_left' (length_coveredHeader e), take_left' (by simp)]

variable {e e' : BinaryEnvelope}

/-- With equal payloads and checksums the kinds are equal too. -/
theorem kind_eq (hpay : e.payload = e'.payload) (hchecksum : checksum e = checksum e') :
    e.kind = e'.kind := by
  have hsplit : ∀ d : BinaryEnvelope, d.payload = e'.payload →
      coveredHeader d ++ d.payload.bytes = (magic ++ encodeBigEndian binaryEnvelopeVersion) ++
        encodeBigEndian d.kind ++
        (encodeBigEndian (e'.payload.size.setWidth 32 : BitVec 32) ++ e'.payload.bytes) := by
    intro d hd
    simp only [coveredHeader, hd, append_assoc]
  have hwindow := checksum_window_eq hchecksum (hsplit e hpay) (hsplit e' rfl) (by simp) (by simp)
  exact encodeBigEndian_injective rfl hwindow

/-- Damage inside a window of at most four bytes that does not straddle the end
of the header never turns one envelope into another. -/
theorem wireFormat_agree {start width : ℕ} (hwidth : width ≤ 4)
    (hplace : start + width ≤ 16 ∨ 16 ≤ start)
    (hlen : (wireFormat e').length = (wireFormat e).length)
    (hagree : AgreeOutside start width (wireFormat e) (wireFormat e')) : e = e' := by
  rcases hplace with hh | hpay
  · have hsame := hagree.drop_eq hh
    rw [drop_sixteen, drop_sixteen] at hsame
    refine envelope_eq ?_ hsame.symm
    -- a window on the kind ends before the checksum field
    by_cases hk : start + width ≤ 6 ∨ 8 ≤ start
    · have hslice := hagree.slice_eq (i := 6) (n := 2) (by omega)
      rw [kind_slice, kind_slice] at hslice
      exact (encodeBigEndian_injective rfl hslice).symm
    have hslice := hagree.slice_eq (i := 12) (n := 4) (by omega)
    rw [checksum_slice, checksum_slice] at hslice
    exact kind_eq (ext_bytes hsame.symm) (encodeBigEndian_injective rfl hslice).symm
  have htake := hagree.slice_eq (i := 0) (n := 16) (by omega)
  rw [drop_zero, drop_zero, take_sixteen, take_sixteen] at htake
  have hfields := Fields.bytes_injective (append_cancel_left htake)
  have hbody := hagree.drop hpay
  rw [drop_sixteen, drop_sixteen] at hbody
  rw [length_wireFormat, length_wireFormat, Nat.add_left_cancel_iff] at hlen
  obtain ⟨before, window, window', after, hsent, hreceived, hsize, hf⟩ := hbody.split hlen
  have hcovered : coveredHeader e' = coveredHeader e := by
    have hk := congrArg Fields.kind hfields
    have hn := congrArg Fields.payloadLength hfields
    simp only [fieldsOf] at hk hn
    rw [coveredHeader, coveredHeader, hk, hn]
  have hchecksum : checksum e = checksum e' := (congrArg Fields.checksum hfields).symm
  have hsplit : coveredHeader e ++ e.payload.bytes =
      (coveredHeader e ++ before) ++ window ++ after := by
    rw [hsent]
    simp
  have hsplit' : coveredHeader e' ++ e'.payload.bytes =
      (coveredHeader e ++ before) ++ window' ++ after := by
    rw [hcovered, hreceived]
    simp
  have hwindow := checksum_window_eq hchecksum hsplit hsplit' hsize (by omega)
  refine envelope_eq (congrArg Fields.kind hfields).symm ?_
  rw [hsent, hreceived, hwindow]

/-- An envelope that is damaged inside a window of at most four bytes, in the
header or in the payload, is rejected whatever the caller's maximum. -/
theorem corruption_detected {sent : List Byte} {received : ByteString} {start width : ℕ}
    (hsent : Encodes e sent) (hlength : received.bytes.length = sent.length) (hwidth : width ≤ 4)
    (hplace : start + width ≤ 16 ∨ 16 ≤ start)
    (hagree : AgreeOutside start width sent received.bytes) (hdamaged : received.bytes ≠ sent)
    (m : Size) (output : BinaryEnvelope) :
    ∃ err, decodeBinaryEnvelope received m output = (.error err, output) := by
  obtain ⟨_, _, hwire⟩ := (encodes_iff e sent).mp hsent
  cases hrun : decodeEnvelope received m with
  | error err => exact ⟨err, by rw [decodeBinaryEnvelope, hrun]⟩
  | ok e' =>
    obtain ⟨_, _, _, hreceived⟩ := (decodeEnvelope_eq_ok received m e').mp hrun
    rw [hwire, hreceived] at hlength hagree
    have hsame := wireFormat_agree hwidth hplace hlength hagree
    exact absurd (by rw [hreceived, hwire, hsame]) hdamaged

/-- The last payload byte of the sample is changed. -/
def damagedInput : ByteString := { bytes := sampleInput.bytes.set 17 3#8 }

theorem corruption_detected_sample :
    ∃ err, decodeBinaryEnvelope damagedInput 2#64 {} = (.error err, {}) := by
  have hagree : AgreeOutside 17 1 sampleInput.bytes damagedInput.bytes :=
    fun i hi => List.getElem?_set_ne (by omega)
  have hlength : damagedInput.bytes.length = sampleInput.bytes.length := List.length_set
  have hdamaged : damagedInput.bytes ≠ sampleInput.bytes := by decide
  have hplace : 17 + 1 ≤ 16 ∨ 16 ≤ 17 := by decide
  exact corruption_detected sampleInput_encodes hlength (by decide) hplace hagree hdamaged 2#64 {}

section Remainder

open CrcPolynomials Polynomial

/-- The form of `crc32c_castagnoli` for one view. -/
def crc32cCastagnoliView (bytes : List Byte) : BitVec 32 :=
  crc32cExtend 0xFFFFFFFF#32 bytes ^^^ 0xFFFFFFFF#32

theorem reverse_castagnoli : (0x1EDC6F41#32).reverse = 0x82F63B78#32 := by decide +kernel

theorem reverse_ones : (0xFFFFFFFF#32).reverse = 0xFFFFFFFF#32 := by decide +kernel

theorem register_crc32cExtend (bytes : List Byte) : register (crc32cExtend 0xFFFFFFFF#32 bytes) =
      (X ^ 32 * message bytes + X ^ (8 * bytes.length) * ofWord 0xFFFFFFFF#32) %ₘ
        generator 0x1EDC6F41#32 := by
  have hones : register 0xFFFFFFFF#32 = ofWord 0xFFFFFFFF#32 := by
    unfold register
    rw [reverse_ones]
  rw [crc32cExtend_eq, ← reverse_castagnoli, add_comm, ← hones]
  exact register_eq_modByMonic (register_absorb (by decide) (by decide) _ _ bytes)

/-- The checksum is the remainder of the message in reverse, and turned over; in two parts it is
that of the whole. -/
theorem crc32cCastagnoli_remainder : (∀ bytes : List Byte, ∃ remainder : BitVec 32,
      ofWord remainder = (X ^ 32 * message bytes + X ^ (8 * bytes.length) * ofWord 0xFFFFFFFF#32) %ₘ
          generator 0x1EDC6F41#32 ∧
      crc32cCastagnoliView bytes = remainder.reverse ^^^ 0xFFFFFFFF#32) ∧
    ∀ first second : List Byte,
      crc32cCastagnoli first second = crc32cCastagnoliView (first ++ second) := by
  refine ⟨fun bytes => ?_, fun first second => ?_⟩
  · refine ⟨(crc32cExtend 0xFFFFFFFF#32 bytes).reverse, register_crc32cExtend bytes, ?_⟩
    rw [BitVec.reverse_reverse_eq]
    rfl
  · unfold crc32cCastagnoli crc32cCastagnoliView crc32cExtend
    rw [List.foldl_append]

example : crc32cCastagnoliView [0x31#8, 0x32#8, 0x33#8, 0x34#8, 0x35#8, 0x36#8, 0x37#8, 0x38#8,
    0x39#8] = 0xE3069283#32 := by decide +kernel

end Remainder

end Laghu.BinaryEnvelopes
