import Laghu.BigEndian
import Laghu.Views
import Mathlib.Data.List.Range

/-!
The bytes behind a view. Encoders and decoders only look at what their views
contain and the views of one call do not overlap, so their contents are lists.
-/

namespace Laghu.ByteStrings

open Contract CheckedArithmetic BigEndian List BitVec

/-- The contents of a view; its size is a `std::size_t`. -/
structure ByteString where
  bytes : List Byte := []
  fits : bytes.length < 2 ^ 64 := by decide
  deriving DecidableEq

namespace ByteString

@[ext] theorem ext_bytes {s t : ByteString} (h : s.bytes = t.bytes) : s = t := by
  cases s
  cases t
  cases h
  rfl

def size (s : ByteString) : Size := BitVec.ofNat 64 s.bytes.length

theorem slice_fits (s : ByteString) (offset length : Size) :
    ((s.bytes.drop offset.toNat).take length.toNat).length < 2 ^ 64 := by
  have hf := s.fits
  simp only [length_take, length_drop]
  omega

def slice (s : ByteString) (offset length : Size) : Result ByteString :=
  match checkedRange offset length s.size with
  | .error e => .error e
  | .ok () => .ok {
      bytes := (s.bytes.drop offset.toNat).take length.toNat
      fits := slice_fits s offset length }

/-- `for (i = 0; i < n; ++i) out[start + i] = bytes[i]`. -/
def store (out : List Byte) (start : ℕ) : List Byte → List Byte
  | [] => out
  | b :: rest => store (out.set start b) (start + 1) rest

theorem length_store (out : List Byte) (start : ℕ) (bytes : List Byte) :
    (store out start bytes).length = out.length := by
  induction bytes generalizing out start with
  | nil => rfl
  | cons b rest ih => rw [store, ih, length_set]

def write (s : ByteString) (start : ℕ) (bytes : List Byte) : ByteString where
  bytes := store s.bytes start bytes
  fits := by rw [length_store]; exact s.fits

theorem bytes_write (s : ByteString) (start : ℕ) (bytes : List Byte) :
    (s.write start bytes).bytes = store s.bytes start bytes := rfl

@[simp] theorem toNat_size (s : ByteString) : s.size.toNat = s.bytes.length := by
  rw [size, toNat_ofNat, Nat.mod_eq_of_lt s.fits]

/-- A slice succeeds exactly inside the string. -/
theorem slice_eq_ok (s t : ByteString) (offset length : Size) :
    s.slice offset length = .ok t ↔ offset.toNat + length.toNat ≤ s.bytes.length ∧
      t.bytes = (s.bytes.drop offset.toNat).take length.toNat := by
  rw [← toNat_size s, ← checkedRange_ok_iff, slice]
  cases hrange : checkedRange offset length s.size with
  | error e => simp
  | ok _ =>
    constructor
    · intro h
      cases h
      exact ⟨rfl, rfl⟩
    · rintro ⟨_, hb⟩
      exact congrArg Except.ok (ext_bytes hb.symm)

theorem slice_total (s : ByteString) (offset length : Size)
    (h : offset.toNat + length.toNat ≤ s.bytes.length) : ∃ t, s.slice offset length = .ok t := by
  refine ⟨⟨(s.bytes.drop offset.toNat).take length.toNat, ?_⟩, ?_⟩
  · have hf := s.fits
    rw [length_take, length_drop]
    omega
  · rw [slice_eq_ok]
    exact ⟨h, rfl⟩

/-- The loop writes exactly the cells it covers. -/
theorem store_eq (out : List Byte) (start : ℕ) (bytes : List Byte)
    (h : start + bytes.length ≤ out.length) :
    store out start bytes = out.take start ++ bytes ++ out.drop (start + bytes.length) := by
  induction bytes generalizing out start with
  | nil => simp [store]
  | cons b rest ih =>
    rw [length_cons] at h
    have hstart : start < out.length := by omega
    have htake : (out.set start b).take (start + 1) = out.take start ++ [b] := by
      rw [take_add_one, take_set_of_le (le_refl _), getElem?_set_self hstart]
      rfl
    have hdrop : (out.set start b).drop (start + 1 + rest.length) =
        out.drop (start + (b :: rest).length) := by
      rw [drop_set_of_lt (by omega), length_cons]
      congr 1
      omega
    rw [store, ih (out.set start b) (start + 1) (by rw [length_set]; omega), htake, hdrop]
    simp

end ByteString

section BigEndianFields

variable {w : ℕ}

/-- `encode_big_endian` for an unsigned type of `w` bits. -/
def encodeBigEndian (value : BitVec w) : List Byte :=
  (List.range (w / 8)).map (fun index => (value >>> ((w / 8 - 1 - index) * 8)).setWidth 8)

/-- The body of the loop in `decode_big_endian`. -/
def shiftIn (value : BitVec w) (byte : Byte) : BitVec w := (value <<< 8) ||| byte.setWidth w

def decodeBigEndian (w : ℕ) (encoded : ByteString) : Result (BitVec w) :=
  if encoded.size.toNat ≠ w / 8 then
    .error (coreError .invalidRange "big-endian value has an invalid encoded size")
  else .ok (encoded.bytes.foldl shiftIn 0#w)

theorem encodeBigEndian_eq (value : BitVec w) :
    encodeBigEndian value = bytesOf (w / 8) value.toNat := by
  apply map_congr_left
  intro i _
  apply eq_of_toNat_eq
  have hpower : 2 ^ ((w / 8 - 1 - i) * 8) = 256 ^ (w / 8 - 1 - i) := by
    rw [mul_comm, Nat.pow_mul]
  rw [toNat_setWidth, toNat_ushiftRight, toNat_ofNat, Nat.shiftRight_eq_div_pow, hpower]

@[simp] theorem length_encodeBigEndian (value : BitVec w) :
    (encodeBigEndian value).length = w / 8 := by
  rw [encodeBigEndian_eq, length_bytesOf]

/-- As long as the bytes fit, the shifts of the decoder lose nothing. -/
theorem toNat_foldl_shiftIn (bytes : List Byte) (h : bytes.length * 8 ≤ w) :
    (bytes.foldl shiftIn 0#w).toNat = value bytes := by
  induction bytes using List.reverseRecOn with
  | nil => rfl
  | append_singleton bytes b ih =>
    rw [length_append, length_singleton] at h
    have hb := b.isLt
    have hv := value_lt bytes
    have hpower : 256 ^ bytes.length * 2 ^ 8 ≤ 2 ^ w := by
      rw [show (256 : ℕ) = 2 ^ 8 by rfl, ← Nat.pow_mul, ← Nat.pow_add]
      exact Nat.pow_le_pow_right (by decide) (by omega)
    have hwide : 2 ^ 8 ≤ 2 ^ w := Nat.pow_le_pow_right (by decide) (by omega)
    rw [foldl_append, foldl_cons, foldl_nil, shiftIn, toNat_or,
      toNat_shiftLeft, ih (by omega), toNat_setWidth, value_append,
      Nat.mod_eq_of_lt (a := b.toNat) (by omega), Nat.shiftLeft_eq, Nat.mod_eq_of_lt (by omega),
      mul_comm, ← Nat.two_pow_add_eq_or_of_lt hb, mul_comm]

theorem encodeBigEndian_injective (hw : w % 8 = 0) {a b : BitVec w}
    (h : encodeBigEndian a = encodeBigEndian b) : a = b := by
  have hpower : 256 ^ (w / 8) = 2 ^ w := by
    rw [show (256 : ℕ) = 2 ^ 8 by rfl, ← Nat.pow_mul]
    congr 1
    omega
  have hv := congrArg value h
  rw [encodeBigEndian_eq, encodeBigEndian_eq, value_bytesOf, value_bytesOf, hpower,
    Nat.mod_eq_of_lt a.isLt, Nat.mod_eq_of_lt b.isLt] at hv
  exact eq_of_toNat_eq hv

/-- Decoding is the inverse of encoding. -/
theorem decodeBigEndian_eq_ok (hw : w % 8 = 0) (encoded : ByteString) (v : BitVec w) :
    decodeBigEndian w encoded = .ok v ↔ encoded.bytes = encodeBigEndian v := by
  by_cases h : encoded.bytes.length = w / 8
  · have hread : encodeBigEndian (encoded.bytes.foldl shiftIn 0#w) = encoded.bytes := by
      rw [encodeBigEndian_eq, toNat_foldl_shiftIn _ (by omega), ← h, bytesOf_value]
    rw [decodeBigEndian, if_neg (by simp [h]), Except.ok.injEq]
    constructor
    · intro heq
      rw [← heq, hread]
    · intro heq
      exact encodeBigEndian_injective hw (hread.trans heq)
  · rw [decodeBigEndian, if_pos (by simpa using h)]
    simp only [reduceCtorEq, false_iff]
    intro heq
    rw [heq, length_encodeBigEndian] at h
    exact h rfl

end BigEndianFields

end Laghu.ByteStrings
