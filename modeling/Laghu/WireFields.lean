import Laghu.Varints

/-!
Messages of the protocol-buffer wire format. A message is a sequence of fields, each a
number and a payload: a base-128 integer, a little-endian word of eight bytes, or a
string of bytes with its length, which may itself be a message. A reader consumes a
whole string, and reads back every sequence of fields that was written.
-/

namespace Laghu.WireFields

open Varints List Option
open BigEndian (Byte)

inductive Payload
  | varint (value : ℕ)
  | fixed64 (value : ℕ)
  | bytes (value : List Byte)
  deriving DecidableEq

structure Field where
  number : ℕ
  payload : Payload
  deriving DecidableEq

/-- The integer before a payload: the field number and, in the low three bits, the
kind of the payload. -/
def Field.key (f : Field) : ℕ :=
  match f.payload with
  | .varint _ => f.number * 8
  | .fixed64 _ => f.number * 8 + 1
  | .bytes _ => f.number * 8 + 2

def Payload.write : Payload → List Byte
  | .varint value => Varints.varint value
  | .fixed64 value => littleEndian 8 value
  | .bytes value => Varints.varint value.length ++ value

def Field.write (f : Field) : List Byte := varint f.key ++ f.payload.write

/-- Every integer in the field has at most 64 bits. -/
def Field.Fits (f : Field) : Prop :=
  f.key < 2 ^ 64 ∧ match f.payload with
    | .varint value => value < 2 ^ 64
    | .fixed64 value => value < 2 ^ 64
    | .bytes value => value.length < 2 ^ 64

def readPayload (kind : ℕ) (bytes : List Byte) : Option (Payload × List Byte) :=
  match kind with
  | 0 => (readVarint 10 bytes).map fun (value, rest) => (.varint value, rest)
  | 1 =>
    if bytes.length < 8 then none
    else some (.fixed64 (readLittleEndian (bytes.take 8)), bytes.drop 8)
  | 2 => (readVarint 10 bytes).bind fun (size, rest) =>
    if rest.length < size then none else some (.bytes (rest.take size), rest.drop size)
  | _ => none

def readField (bytes : List Byte) : Option (Field × List Byte) :=
  (readVarint 10 bytes).bind fun (key, rest) =>
    (readPayload (key % 8) rest).map fun (payload, after) => (⟨key / 8, payload⟩, after)

/-- At most `limit` fields; what is left after them has to be empty. -/
def readUpTo : ℕ → List Byte → Option (List Field)
  | _, [] => some []
  | 0, _ :: _ => none
  | limit + 1, byte :: bytes =>
    (readField (byte :: bytes)).bind fun (f, rest) => (readUpTo limit rest).map (f :: ·)

/-- A message has no more fields than bytes. -/
def readFields (bytes : List Byte) : Option (List Field) := readUpTo bytes.length bytes

theorem readVarint_word {n : ℕ} (h : n < 2 ^ 64) (rest : List Byte) :
    readVarint 10 (varint n ++ rest) = some (n, rest) :=
  readVarint_varint n 10 rest (length_varint_le 9 (Nat.lt_of_lt_of_le h (by decide)))

theorem readField_write {f : Field} (h : f.Fits) (rest : List Byte) :
    readField (f.write ++ rest) = some (f, rest) := by
  obtain ⟨number, payload⟩ := f
  obtain ⟨hkey, hpay⟩ := h
  rw [readField, Field.write, append_assoc, readVarint_word hkey, bind_some]
  cases payload with
  | varint value =>
    have hk : Field.key ⟨number, .varint value⟩ % 8 = 0 := Nat.mul_mod_left number 8
    have hnum : Field.key ⟨number, .varint value⟩ / 8 = number :=
      Nat.mul_div_cancel number (by decide)
    simp only [hk, hnum, readPayload, Payload.write, readVarint_word hpay, map_some]
  | fixed64 value =>
    have hk : Field.key ⟨number, .fixed64 value⟩ % 8 = 1 := by simp only [Field.key]; omega
    have hnum : Field.key ⟨number, .fixed64 value⟩ / 8 = number := by
      simp only [Field.key]
      omega
    have hlen : ¬ (littleEndian 8 value ++ rest).length < 8 := by
      rw [length_append, length_littleEndian]
      omega
    have htake : (littleEndian 8 value ++ rest).take 8 = littleEndian 8 value :=
      take_left' (length_littleEndian 8 value)
    have hdrop : (littleEndian 8 value ++ rest).drop 8 = rest :=
      drop_left' (length_littleEndian 8 value)
    have hv : value < 256 ^ 8 := hpay
    simp only [hk, hnum, readPayload, Payload.write, if_neg hlen, htake, hdrop,
      readLittleEndian_littleEndian hv, map_some]
  | bytes value =>
    have hk : Field.key ⟨number, .bytes value⟩ % 8 = 2 := by simp only [Field.key]; omega
    have hnum : Field.key ⟨number, .bytes value⟩ / 8 = number := by
      simp only [Field.key]
      omega
    have hlen : ¬ (value ++ rest).length < value.length := by
      rw [length_append]
      omega
    simp only [hk, hnum, readPayload, Payload.write, append_assoc,
      readVarint_word hpay, bind_some, if_neg hlen, take_left, drop_left,
      map_some]

theorem length_write_pos (f : Field) : 0 < f.write.length := by
  have := length_varint_pos f.key
  rw [Field.write, length_append]
  omega

variable {fields : List Field}

theorem readUpTo_flatMap (h : ∀ f ∈ fields, f.Fits) {limit : ℕ}
    (hlimit : fields.length ≤ limit) :
    readUpTo limit (fields.flatMap Field.write) = some fields := by
  induction fields generalizing limit with
  | nil => cases limit <;> rfl
  | cons f fields ih =>
    obtain ⟨hf, hfields⟩ := forall_mem_cons.mp h
    obtain ⟨k, rfl⟩ : ∃ k, limit = k + 1 := ⟨limit - 1, by rw [length_cons] at hlimit; omega⟩
    rw [flatMap_cons]
    have hread := readField_write hf (fields.flatMap Field.write)
    have hpos := length_write_pos f
    cases hb : f.write ++ fields.flatMap Field.write with
    | nil =>
      rw [(append_eq_nil_iff.mp hb).1] at hpos
      exact absurd hpos (by simp)
    | cons byte bytes =>
      rw [hb] at hread
      rw [readUpTo, hread, bind_some]
      dsimp only
      rw [ih hfields (by simpa using hlimit), map_some]

theorem length_le_flatMap (fields : List Field) :
    fields.length ≤ (fields.flatMap Field.write).length := by
  induction fields with
  | nil => exact Nat.le_refl 0
  | cons f fields ih =>
    have := length_write_pos f
    rw [flatMap_cons, length_append, length_cons]
    omega

/-- Reading a message gives back the fields that were written, and nothing is left. -/
theorem readFields_write (h : ∀ f ∈ fields, f.Fits) :
    readFields (fields.flatMap Field.write) = some fields :=
  readUpTo_flatMap h (length_le_flatMap fields)

/-- The strings of the fields with a number, in order. -/
def stringsOf (number : ℕ) (fields : List Field) : List (List Byte) :=
  fields.filterMap fun f =>
    match f.payload with
    | .bytes value => if f.number = number then some value else none
    | _ => none

/-- The integers and words of the fields with a number, in order. -/
def numbersOf (number : ℕ) (fields : List Field) : List ℕ :=
  fields.filterMap fun f =>
    match f.payload with
    | .varint value => if f.number = number then some value else none
    | .fixed64 value => if f.number = number then some value else none
    | .bytes _ => none

/-- A field that may occur once: the last occurrence counts. -/
def stringOf (number : ℕ) (fields : List Field) : List Byte :=
  (stringsOf number fields).getLast?.getD []

def numberOf (number : ℕ) (fields : List Field) : ℕ := (numbersOf number fields).getLast?.getD 0

@[simp] theorem stringsOf_nil (number : ℕ) : stringsOf number [] = [] := rfl

@[simp] theorem numbersOf_nil (number : ℕ) : numbersOf number [] = [] := rfl

@[simp] theorem stringsOf_bytes (number other : ℕ) (value : List Byte) (rest : List Field) :
    stringsOf number (⟨other, .bytes value⟩ :: rest) =
      if other = number then value :: stringsOf number rest else stringsOf number rest := by
  by_cases h : other = number <;> simp [stringsOf, h]

@[simp] theorem stringsOf_varint (number other value : ℕ) (rest : List Field) :
    stringsOf number (⟨other, .varint value⟩ :: rest) = stringsOf number rest := rfl

@[simp] theorem stringsOf_fixed64 (number other value : ℕ) (rest : List Field) :
    stringsOf number (⟨other, .fixed64 value⟩ :: rest) = stringsOf number rest := rfl

@[simp] theorem numbersOf_bytes (number other : ℕ) (value : List Byte) (rest : List Field) :
    numbersOf number (⟨other, .bytes value⟩ :: rest) = numbersOf number rest := rfl

@[simp] theorem numbersOf_varint (number other value : ℕ) (rest : List Field) :
    numbersOf number (⟨other, .varint value⟩ :: rest) =
      if other = number then value :: numbersOf number rest else numbersOf number rest := by
  by_cases h : other = number <;> simp [numbersOf, h]

@[simp] theorem numbersOf_fixed64 (number other value : ℕ) (rest : List Field) :
    numbersOf number (⟨other, .fixed64 value⟩ :: rest) =
      if other = number then value :: numbersOf number rest else numbersOf number rest :=
  numbersOf_varint number other value rest

@[simp] theorem stringsOf_append (number : ℕ) (left right : List Field) :
    stringsOf number (left ++ right) = stringsOf number left ++ stringsOf number right :=
  filterMap_append

@[simp] theorem numbersOf_append (number : ℕ) (left right : List Field) :
    numbersOf number (left ++ right) = numbersOf number left ++ numbersOf number right :=
  filterMap_append

section

variable {α : Type} {items : List α} {f : α → List Byte}

/-- A repeated field of strings. -/
@[simp] theorem stringsOf_map (number other : ℕ) :
    stringsOf number (items.map fun a => ⟨other, .bytes (f a)⟩) =
      if other = number then items.map f else [] := by
  induction items with
  | nil => simp
  | cons a items ih =>
    rw [map_cons, stringsOf_bytes, ih]
    by_cases h : other = number <;> simp [h]

@[simp] theorem numbersOf_map (number other : ℕ) :
    numbersOf number (items.map fun a => ⟨other, .bytes (f a)⟩) = [] := by
  induction items with
  | nil => rfl
  | cons a items ih => rw [map_cons, numbersOf_bytes, ih]

/-- Every element of a repeated field is read. -/
theorem mapM_map {β γ : Type} {items : List β} {write : β → List Byte}
    {read : List Byte → Option γ} {view : β → γ} (h : ∀ b ∈ items, read (write b) = some (view b)) :
    (items.map write).mapM read = some (items.map view) := by
  induction items with
  | nil => rfl
  | cons b items ih =>
    obtain ⟨hb, hitems⟩ := forall_mem_cons.mp h
    rw [map_cons, mapM_cons, hb, ih hitems]
    rfl

end

end Laghu.WireFields
