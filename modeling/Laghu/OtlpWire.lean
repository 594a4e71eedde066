import Laghu.OtlpEncoding
import Laghu.Varints

/-!
The two outputs agree. `wire` is the string of bytes a call stands for: a message is
framed by the length of its own bytes. A `Sizer` counts those bytes, and a `Writer`
writes them, or fails when they do not fit.
-/

namespace Laghu.OtlpEncoding

open Contract Varints List
open BigEndian (Byte)
open ByteStrings (ByteString)
open BitVec (eq_of_toNat_eq ofNat ofNat_add toNat_and toNat_ofNat toNat_ushiftRight)

mutual
def wire : Call → List Byte
  | .varint value => varint value.toNat
  | .tag field wire => varint (tagValue field wire).toNat
  | .bytes field value => varint (tagValue field 2#8).toNat ++ varint value.length ++ value
  | .text field value => varint (tagValue field 2#8).toNat ++ varint value.length ++ value
  | .fixed64 field value => varint (tagValue field 1#8).toNat ++ littleEndian 8 value.toNat
  | .message field encoder =>
    varint (tagValue field 2#8).toNat ++ varint (wires encoder).length ++ wires encoder
  | .refuse => []

def wires : List Call → List Byte
  | [] => []
  | c :: rest => wire c ++ wires rest
end

-- No encoder below a call refuses.
mutual
def Accepts : Call → Prop
  | .message _ encoder => AcceptsAll encoder
  | .refuse => False
  | _ => True

def AcceptsAll : List Call → Prop
  | [] => True
  | c :: rest => Accepts c ∧ AcceptsAll rest
end

theorem varintSizeLoop_eq (value : BitVec 64) (result : Size) :
    varintSizeLoop value result + 1#64 = result + ofNat 64 (varint value.toNat).length := by
  fun_induction varintSizeLoop value result with
  | case1 value result h ih =>
    have hle : 128 ≤ value.toNat := h
    have hshift : (value >>> 7).toNat = value.toNat / 128 := by
      rw [toNat_ushiftRight, Nat.shiftRight_eq_div_pow]
    rw [ih, hshift, varint_of_ge (n := value.toNat) (by omega), length_cons, ofNat_add]
    rw [BitVec.add_assoc, BitVec.add_comm 1#64]
  | case2 value result h =>
    have hlt : value.toNat < 128 := Nat.lt_of_not_le h
    rw [varint_of_lt hlt, length_singleton]

theorem varintSize_eq (value : BitVec 64) :
    varintSize value = ofNat 64 (varint value.toNat).length := by
  have h := varintSizeLoop_eq value 1#64
  rw [BitVec.add_comm 1#64] at h
  exact (BitVec.add_left_inj 1#64).mp h

variable {value : List Byte}

theorem varintSize_sizeOf (h : value.length < 2 ^ 64) :
    varintSize (sizeOf value) = ofNat 64 (varint value.length).length := by
  rw [varintSize_eq, sizeOf, toNat_ofNat, Nat.mod_eq_of_lt h]

theorem sizer_frame (h : value.length < 2 ^ 64) (field : BitVec 32) :
    varintSize (tagValue field 2#8) + varintSize (sizeOf value) + sizeOf value = ofNat 64
        (varint (tagValue field 2#8).toNat ++ varint value.length ++ value).length := by
  rw [varintSize_eq, varintSize_sizeOf h, sizeOf, length_append, length_append,
    ofNat_add, ofNat_add]

-- The sizer counts the bytes of a call: by induction on the call, each nested encoder
-- being counted from zero.
mutual
theorem sizer_call (c : Call) (s : Sizer) (hacc : Accepts c) (hlen : (wire c).length < 2 ^ 64) :
    Sizer.call c s = (true, ⟨s.used + ofNat 64 (wire c).length⟩) := by
  cases c with
  | varint value => rw [Sizer.call, Sizer.varint, varintSize_eq, wire]
  | tag field number => rw [Sizer.call, Sizer.tag, Sizer.varint, varintSize_eq, wire]
  | bytes field value =>
    rw [wire, length_append] at hlen
    rw [Sizer.call, Sizer.bytes, sizer_frame (by omega), wire]
  | text field value =>
    rw [wire, length_append] at hlen
    rw [Sizer.call, Sizer.text, sizer_frame (by omega), wire]
  | fixed64 field value =>
    rw [Sizer.call, Sizer.fixed64, varintSize_eq, wire, length_append, length_littleEndian,
      ofNat_add]
  | message field encoder =>
    rw [wire, length_append] at hlen
    have hchild := sizer_calls encoder {} hacc (by omega)
    rw [BitVec.zero_add] at hchild
    rw [Sizer.call, hchild, wire]
    exact congrArg (fun n => (true, Sizer.mk (s.used + n))) (sizer_frame (by omega) field)
  | refuse => exact absurd hacc id

theorem sizer_calls (cs : List Call) (s : Sizer) (hacc : AcceptsAll cs)
    (hlen : (wires cs).length < 2 ^ 64) :
    Sizer.calls cs s = (true, ⟨s.used + ofNat 64 (wires cs).length⟩) := by
  cases cs with
  | nil => rw [Sizer.calls, wires, length_nil, BitVec.add_zero]
  | cons c rest =>
    rw [wires, length_append] at hlen
    rw [Sizer.calls, sizer_call c s hacc.1 (by omega), andThen, if_pos rfl,
      sizer_calls rest _ hacc.2 (by omega), wires, length_append, ofNat_add,
      BitVec.add_assoc]
end

theorem sizer_used {encoder : List Call} (hacc : AcceptsAll encoder)
    (hlen : (wires encoder).length < 2 ^ 64) :
    Sizer.calls encoder {} = (true, ⟨sizeOf (wires encoder)⟩) := by
  rw [sizer_calls encoder {} hacc hlen, BitVec.zero_add, sizeOf]

/-- On every writer `f` writes `bytes` and returns true, or returns false when the
output has no room for them. -/
def Emits (f : Writer → Bool × Writer) (bytes : List Byte) : Prop :=
  ∀ w : Writer, w.used ≤ w.output.length →
    (w.used + bytes.length ≤ w.output.length → f w = (true, w.put bytes)) ∧
    (¬ w.used + bytes.length ≤ w.output.length → (f w).1 = false)

theorem put_nil (w : Writer) : w.put [] = w := rfl

theorem length_put (w : Writer) (bytes : List Byte) :
    (w.put bytes).output.length = w.output.length :=
  ByteString.length_store _ _ _

theorem store_append (out : List Byte) (start : ℕ) (left right : List Byte) :
    ByteString.store out start (left ++ right) =
      ByteString.store (ByteString.store out start left) (start + left.length) right := by
  induction left generalizing out start with
  | nil => rfl
  | cons b left ih =>
    rw [cons_append, ByteString.store, ih, ByteString.store, length_cons]
    congr 1
    omega

theorem put_append (w : Writer) (left right : List Byte) :
    (w.put left).put right = w.put (left ++ right) := by
  unfold Writer.put
  rw [store_append, length_append, add_assoc]

theorem Emits.andThen {f g : Writer → Bool × Writer} {left right : List Byte} (hf : Emits f left)
    (hg : Emits g right) : Emits (fun w => OtlpEncoding.andThen (f w) g) (left ++ right) := by
  intro w hw
  rw [length_append]
  by_cases hleft : w.used + left.length ≤ w.output.length
  · have hput : (w.put left).used ≤ (w.put left).output.length := by
      rw [length_put]
      exact hleft
    obtain ⟨hfits, hfull⟩ := hg _ hput
    have hused : (w.put left).used = w.used + left.length := rfl
    rw [hused, length_put] at hfits hfull
    simp only [OtlpEncoding.andThen, (hf w hw).1 hleft, if_true]
    refine ⟨fun h => ?_, fun h => hfull (by omega)⟩
    rw [hfits (by omega), put_append]
  · refine ⟨fun h => absurd h (by omega), fun _ => ?_⟩
    have hfalse := (hf w hw).2 hleft
    simp only [OtlpEncoding.andThen, hfalse, Bool.false_eq_true, if_false]

theorem toNat_shift (value : BitVec 64) : (value >>> 7).toNat = value.toNat / 128 := by
  rw [toNat_ushiftRight, Nat.shiftRight_eq_div_pow]

theorem low_group (value : BitVec 64) :
    (value &&& 0x7f#64).setWidth 8 = ofNat 8 (value.toNat % 128) := by
  apply eq_of_toNat_eq
  have hand : value.toNat &&& 127 = value.toNat % 128 := Nat.and_two_pow_sub_one_eq_mod _ 7
  rw [BitVec.toNat_setWidth, toNat_and, toNat_ofNat, toNat_ofNat]
  rw [hand]

theorem low_group_continued (value : BitVec 64) :
    (value &&& 0x7f#64).setWidth 8 ||| 0x80#8 = ofNat 8 (value.toNat % 128 + 128) := by
  have hlt : value.toNat % 128 < 2 ^ 7 := by omega
  have hor : 128 ||| value.toNat % 128 = value.toNat % 128 + 128 := by
    rw [add_comm]
    exact (Nat.two_pow_add_eq_or_of_lt hlt 1).symm
  have hlow : (ofNat 8 (value.toNat % 128)).toNat = value.toNat % 128 := by
    rw [toNat_ofNat]
    omega
  apply eq_of_toNat_eq
  rw [low_group, BitVec.toNat_or, hlow, Nat.or_comm]
  change 128 ||| value.toNat % 128 = (ofNat 8 (value.toNat % 128 + 128)).toNat
  rw [hor, toNat_ofNat]
  omega

theorem writer_varint_succ {value : BitVec 64} (h : ¬ value.toNat < 128) {w : Writer}
    (hr : w.used ≠ w.output.length) :
    w.varint value = (w.put [ofNat 8 (value.toNat % 128 + 128)]).varint (value >>> 7) := by
  have hne : value >>> 7 ≠ 0#64 := shift_ne_zero (Nat.le_of_not_lt h)
  rw [Writer.varint, if_neg hr]
  simp only [low_group_continued]
  rw [dif_pos hne]

theorem writer_varint_last {value : BitVec 64} (h : value.toNat < 128) {w : Writer}
    (hr : w.used ≠ w.output.length) :
    w.varint value = (true, w.put [ofNat 8 value.toNat]) := by
  have heq : value >>> 7 = 0#64 := by
    apply eq_of_toNat_eq
    rw [toNat_shift]
    exact Nat.div_eq_of_lt h
  rw [Writer.varint, if_neg hr, dif_neg (not_not.mpr heq), low_group, Nat.mod_eq_of_lt h]

/-- The loop writes one group of seven bits after the other. -/
theorem emits_varint (value : BitVec 64) :
    Emits (fun w => w.varint value) (varint value.toNat) := by
  induction hn : value.toNat using Nat.strong_induction_on generalizing value with
  | h n ih =>
    intro w hw
    have hpos := length_varint_pos n
    by_cases hr : w.used = w.output.length
    · refine ⟨fun h => absurd h (by omega), fun _ => ?_⟩
      simp only
      rw [Writer.varint, if_pos hr]
    by_cases hl : n < 128
    · rw [varint_of_lt hl, length_singleton]
      refine ⟨fun _ => ?_, fun h => absurd h (by omega)⟩
      simp only
      rw [writer_varint_last (hn ▸ hl) hr, hn]
    have hput : (w.put [ofNat 8 (n % 128 + 128)]).used ≤
        (w.put [ofNat 8 (n % 128 + 128)]).output.length := by
      rw [length_put]
      change w.used + 1 ≤ w.output.length
      omega
    obtain ⟨hf, hfull⟩ := ih (n / 128) (by omega) (value >>> 7) (by rw [toNat_shift, hn]) _ hput
    have hused : (w.put [ofNat 8 (n % 128 + 128)]).used = w.used + 1 := rfl
    rw [hused, length_put] at hf hfull
    rw [varint_of_ge hl, length_cons]
    simp only [writer_varint_succ (hn ▸ hl) hr, hn]
    refine ⟨fun h => ?_, fun h => hfull (by omega)⟩
    exact (hf (by omega)).trans (by rw [put_append, singleton_append])

theorem emits_payload (value : List Byte) : Emits (Writer.payload value) value := by
  intro w hw
  unfold Writer.payload
  refine ⟨fun h => ?_, fun h => ?_⟩
  · rw [if_neg (by omega)]
  · rw [if_pos (by omega)]

theorem shiftedBytes_eq (value : BitVec 64) :
    Writer.shiftedBytes value = littleEndian 8 value.toNat := by
  rw [littleEndian_eq_map]
  refine map_congr_left fun i _ => eq_of_toNat_eq ?_
  have hpow : (256 : ℕ) ^ i = 2 ^ (8 * i) := by rw [Nat.pow_mul]
  have hand := Nat.and_two_pow_sub_one_eq_mod (value.toNat / 2 ^ (8 * i)) 8
  rw [BitVec.toNat_setWidth, toNat_and, toNat_ushiftRight, toNat_ofNat,
    toNat_ofNat, Nat.shiftRight_eq_div_pow, hpow]
  rw [hand, Nat.mod_mod]

theorem emits_fixed64 (field : BitVec 32) (value : BitVec 64) :
    Emits (fun w => w.fixed64 field value) (wire (.fixed64 field value)) := by
  rw [wire]
  refine (emits_varint _).andThen ?_
  intro w hw
  dsimp only
  rw [length_littleEndian]
  refine ⟨fun h => ?_, fun h => ?_⟩
  · rw [if_neg (by omega), shiftedBytes_eq]
  · rw [if_pos (by omega)]

/-- A tag, a length and the bytes written by `f`. -/
theorem emits_frame {f : Writer → Bool × Writer} (hf : Emits f value)
    (hlen : value.length < 2 ^ 64) (field : BitVec 32) :
    Emits (fun w => andThen (andThen (w.tag field 2#8) (·.varint (sizeOf value))) f)
      (varint (tagValue field 2#8).toNat ++ varint value.length ++ value) := by
  have hsize : (sizeOf value).toNat = value.length := by
    rw [sizeOf, toNat_ofNat, Nat.mod_eq_of_lt hlen]
  have hsized := emits_varint (sizeOf value)
  rw [hsize] at hsized
  exact ((emits_varint _).andThen hsized).andThen hf

mutual
theorem emits_call (c : Call) (hacc : Accepts c) (hlen : (wire c).length < 2 ^ 64) :
    Emits (Writer.call c) (wire c) := by
  cases c with
  | varint value => exact emits_varint value
  | tag field number => exact emits_varint _
  | bytes field value | text field value =>
    rw [wire] at hlen ⊢
    rw [length_append] at hlen
    exact emits_frame (emits_payload value) (by omega) field
  | fixed64 field value => exact emits_fixed64 field value
  | message field encoder =>
    rw [wire] at hlen ⊢
    rw [length_append] at hlen
    have hchild := sizer_used hacc (by omega)
    have hframe := emits_frame (emits_calls encoder hacc (by omega)) (by omega) field
    intro w hw
    rw [Writer.call, hchild]
    exact hframe w hw
  | refuse => exact absurd hacc id

theorem emits_calls (cs : List Call) (hacc : AcceptsAll cs)
    (hlen : (wires cs).length < 2 ^ 64) : Emits (Writer.calls cs) (wires cs) := by
  cases cs with
  | nil =>
    intro w hw
    rw [wires, Writer.calls, put_nil]
    exact ⟨fun _ => rfl, fun h => absurd hw h⟩
  | cons c rest =>
    rw [wires] at hlen ⊢
    rw [length_append] at hlen
    exact (emits_call c hacc.1 (by omega)).andThen (emits_calls rest hacc.2 (by omega))
end

end Laghu.OtlpEncoding
