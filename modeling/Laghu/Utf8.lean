import Laghu.BigEndian
import Mathlib.Data.List.Basic

/-!
UTF-8: the shortest encodings of Unicode scalar values, and the texts that are concatenations
of them. The scalar values are the numbers that are valid characters: those below the
surrogates, and those above them up to `0x10ffff`.
-/

namespace Laghu.Utf8

open BigEndian (Byte)
open BitVec (ofNat)

/-- The shortest encoding of a scalar value, of one to four bytes. -/
def encode (scalar : ℕ) : List Byte :=
  if scalar < 0x80 then [BitVec.ofNat 8 scalar]
  else if scalar < 0x800 then
    [BitVec.ofNat 8 (0xc0 + scalar / 64), BitVec.ofNat 8 (0x80 + scalar % 64)]
  else if scalar < 0x10000 then
    [BitVec.ofNat 8 (0xe0 + scalar / 4096), BitVec.ofNat 8 (0x80 + scalar / 64 % 64),
      BitVec.ofNat 8 (0x80 + scalar % 64)]
  else
    [BitVec.ofNat 8 (0xf0 + scalar / 262144), BitVec.ofNat 8 (0x80 + scalar / 4096 % 64),
      BitVec.ofNat 8 (0x80 + scalar / 64 % 64), BitVec.ofNat 8 (0x80 + scalar % 64)]

/-- A concatenation of encodings of scalar values. -/
def WellFormed (text : List Byte) : Prop :=
  ∃ scalars : List ℕ, (∀ scalar ∈ scalars, scalar.isValidChar) ∧ text = scalars.flatMap encode

/-- A byte behind the first of an encoding. -/
def Tail (byte : Byte) : Prop := 0x80 ≤ byte.toNat ∧ byte.toNat < 0xc0

theorem ofNat_eq {n : ℕ} (byte : Byte) (h : n = byte.toNat) : ofNat 8 n = byte := by
  rw [h, BitVec.ofNat_toNat, BitVec.setWidth_eq]

section

variable {a b c d : Byte}

theorem encode_one (ha : a.toNat < 0x80) : encode a.toNat = [a] := by
  unfold encode
  rw [if_pos ha, ofNat_eq a rfl]

theorem encode_two (ha : 0xc2 ≤ a.toNat ∧ a.toNat ≤ 0xdf) (hb : Tail b) :
    encode ((a.toNat - 0xc0) * 64 + (b.toNat - 0x80)) = [a, b] := by
  unfold Tail at hb
  unfold encode
  rw [if_neg (by omega), if_pos (by omega), ofNat_eq a (by omega), ofNat_eq b (by omega)]

theorem encode_three (ha : 0xe0 ≤ a.toNat ∧ a.toNat ≤ 0xef) (hb : Tail b) (hc : Tail c)
    (hlong : a.toNat = 0xe0 → 0xa0 ≤ b.toNat) :
    encode ((a.toNat - 0xe0) * 4096 + (b.toNat - 0x80) * 64 + (c.toNat - 0x80)) = [a, b, c] := by
  unfold Tail at hb hc
  unfold encode
  rw [if_neg (by omega), if_neg (by omega), if_pos (by omega), ofNat_eq a (by omega),
    ofNat_eq b (by omega), ofNat_eq c (by omega)]

theorem encode_four (ha : 0xf0 ≤ a.toNat ∧ a.toNat ≤ 0xf4) (hb : Tail b) (hc : Tail c)
    (hd : Tail d) (hlong : a.toNat = 0xf0 → 0x90 ≤ b.toNat) :
    encode ((a.toNat - 0xf0) * 262144 + (b.toNat - 0x80) * 4096 + (c.toNat - 0x80) * 64 +
      (d.toNat - 0x80)) = [a, b, c, d] := by
  unfold Tail at hb hc hd
  unfold encode
  rw [if_neg (by omega), if_neg (by omega), if_neg (by omega), ofNat_eq a (by omega),
    ofNat_eq b (by omega), ofNat_eq c (by omega),
    ofNat_eq d (by omega)]

end

/-- The bytes of an encoding, by their number. -/
inductive Encoded : List Byte → Prop
  | one {a : Byte} (ha : a.toNat < 0x80) : Encoded [a]
  | two {a b : Byte} (ha : 0xc2 ≤ a.toNat ∧ a.toNat ≤ 0xdf) (hb : Tail b) : Encoded [a, b]
  | three {a b c : Byte} (ha : 0xe0 ≤ a.toNat ∧ a.toNat ≤ 0xef) (hb : Tail b) (hc : Tail c)
      (hlong : a.toNat = 0xe0 → 0xa0 ≤ b.toNat) (hsurrogate : a.toNat = 0xed → b.toNat < 0xa0) :
      Encoded [a, b, c]
  | four {a b c d : Byte} (ha : 0xf0 ≤ a.toNat ∧ a.toNat ≤ 0xf4) (hb : Tail b) (hc : Tail c)
      (hd : Tail d) (hlong : a.toNat = 0xf0 → 0x90 ≤ b.toNat)
      (hlast : a.toNat = 0xf4 → b.toNat < 0x90) : Encoded [a, b, c, d]

/-- These are the bytes of the scalar values and of nothing else. -/
theorem encoded_iff (bytes : List Byte) :
    Encoded bytes ↔ ∃ scalar : ℕ, scalar.isValidChar ∧ bytes = encode scalar := by
  constructor
  · intro h
    cases h with
    | one ha => exact ⟨_, .inl (by omega), (encode_one ha).symm⟩
    | two ha hb =>
      refine ⟨_, .inl ?_, (encode_two ha hb).symm⟩
      omega
    | three ha hb hc hlong hsurrogate =>
      refine ⟨_, ?_, (encode_three ha hb hc hlong).symm⟩
      unfold Tail at hb hc
      omega
    | four ha hb hc hd hlong hlast =>
      refine ⟨_, .inr ?_, (encode_four ha hb hc hd hlong).symm⟩
      unfold Tail at hb hc hd
      omega
  rintro ⟨scalar, hv, rfl⟩
  unfold encode
  have hbyte {n : ℕ} (h : n < 256) : (ofNat 8 n).toNat = n := by
    rw [BitVec.toNat_ofNat]
    omega
  split
  · exact .one (by rw [hbyte] <;> omega)
  split
  · refine .two ?_ ?_
    · rw [hbyte] <;> omega
    · unfold Tail
      rw [hbyte] <;> omega
  have htail (n : ℕ) : Tail (ofNat 8 (0x80 + n % 64)) := by
    unfold Tail
    rw [hbyte] <;> omega
  split
  · have hf : (ofNat 8 (0xe0 + scalar / 4096)).toNat = 0xe0 + scalar / 4096 :=
      hbyte (by omega)
    have hsec : (ofNat 8 (0x80 + scalar / 64 % 64)).toNat = 0x80 + scalar / 64 % 64 :=
      hbyte (by omega)
    refine .three ?_ (htail _) (htail _) ?_ ?_
    · omega
    · omega
    · omega
  have hf : (ofNat 8 (0xf0 + scalar / 262144)).toNat = 0xf0 + scalar / 262144 :=
    hbyte (by omega)
  have hsec : (ofNat 8 (0x80 + scalar / 4096 % 64)).toNat =
      0x80 + scalar / 4096 % 64 := hbyte (by omega)
  refine .four ?_ (htail _) (htail _) (htail _) ?_ ?_
  · omega
  · omega
  · omega

theorem wellFormed_nil : WellFormed [] := ⟨[], List.forall_mem_nil _, rfl⟩

theorem wellFormed_append {bytes rest : List Byte} (hb : Encoded bytes)
    (hr : WellFormed rest) : WellFormed (bytes ++ rest) := by
  obtain ⟨scalar, hv, rfl⟩ := (encoded_iff bytes).mp hb
  obtain ⟨scalars, hscalars, rfl⟩ := hr
  exact ⟨scalar :: scalars, List.forall_mem_cons.mpr ⟨hv, hscalars⟩, rfl⟩

/-- What holds of no bytes, and of an encoding before a text of which it holds, holds of every
text that is well formed. -/
theorem WellFormed.induction {motive : List Byte → Prop} (hnil : motive [])
    (happend : ∀ bytes rest, Encoded bytes → motive rest → motive (bytes ++ rest))
    {text : List Byte} (h : WellFormed text) : motive text := by
  obtain ⟨scalars, hscalars, rfl⟩ := h
  induction scalars with
  | nil => exact hnil
  | cons scalar scalars ih =>
    obtain ⟨hv, hr⟩ := List.forall_mem_cons.mp hscalars
    exact happend _ _ ((encoded_iff _).mpr ⟨scalar, hv, rfl⟩) (ih hr)

end Laghu.Utf8
