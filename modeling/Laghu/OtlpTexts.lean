import Laghu.OtlpEncoding
import Laghu.Utf8

/-!
The texts the OTLP encoder takes. `valid_utf8` walks over a text by positions, and reads a
position after it has checked that it is inside; `none` is a read past the end, or a walk that
does not come to an end. It accepts the texts that are well-formed UTF-8, and `from` copies
these, if they fit, byte for byte.
-/

namespace Laghu.OtlpEncoding

open Contract Utf8 Option Bool
open BigEndian (Byte)

/-- The body of the loop of `valid_utf8` at a position: by how much it goes on, or that the text
is rejected. -/
def utf8Step (text : List Byte) (index : ℕ) : Option (Option ℕ) :=
  text[index]?.bind fun first =>
    if first ≤ 0x7f#8 then some (some 1)
    else if 0xc2#8 ≤ first ∧ first ≤ 0xdf#8 then
      if index + 1 ≥ text.length then some none
      else text[index + 1]?.bind fun second =>
        if continuation second = false then some none else some (some 2)
    else if 0xe0#8 ≤ first ∧ first ≤ 0xef#8 then
      if index + 2 ≥ text.length then some none
      else
        text[index + 1]?.bind fun second =>
        text[index + 2]?.bind fun third =>
          if !continuation second || !continuation third || (first == 0xe0#8 && second < 0xa0#8) ||
              (first == 0xed#8 && 0xa0#8 ≤ second) then some none
          else some (some 3)
    else if 0xf0#8 ≤ first ∧ first ≤ 0xf4#8 then
      if index + 3 ≥ text.length then some none
      else
        text[index + 1]?.bind fun second =>
        text[index + 2]?.bind fun third =>
        text[index + 3]?.bind fun fourth =>
          if !continuation second || !continuation third || !continuation fourth ||
              (first == 0xf0#8 && second < 0x90#8) || (first == 0xf4#8 && 0x90#8 ≤ second) then
            some none
          else some (some 4)
    else some none

/-- The loop of `valid_utf8` from a position on. -/
def scanUtf8 (text : List Byte) : ℕ → ℕ → Option Bool
  | 0, _ => none
  | steps + 1, index =>
    if index < text.length then
      (utf8Step text index).bind fun advance =>
        match advance with
        | none => some false
        | some count => scanUtf8 text steps (index + count)
    else some true

/-- The array and the size of an `OtlpText`. -/
structure TextStorage (capacity : ℕ) where
  bytes : Vector Byte capacity := Vector.replicate capacity 0#8
  size : BitVec 16 := 0

/-- `value()` -/
def TextStorage.value {capacity : ℕ} (storage : TextStorage capacity) : List Byte :=
  storage.bytes.toList.take storage.size.toNat

/-- The loop of `from` that copies, from a position on; `none` is a write past the array. -/
def copyText {capacity : ℕ} (text : List Byte) :
    ℕ → ℕ → Vector Byte capacity → Option (Vector Byte capacity)
  | 0, _, bytes => some bytes
  | steps + 1, index, bytes =>
    text[index]?.bind fun byte =>
      if h : index < capacity then copyText text steps (index + 1) (bytes.set index byte h)
      else none

/-- `from`, with the loops it runs. -/
def storeText (capacity : ℕ) (text : List Byte) : Option (Result (TextStorage capacity)) :=
  if text.length > capacity then
    some (.error (coreError .exhaustion "OTLP text capacity is exhausted"))
  else
    (scanUtf8 text (text.length + 1) 0).bind fun valid =>
      if valid = false then
        some (.error (coreError .invalidInput "OTLP text is not valid UTF-8"))
      else
        (copyText text text.length 0 (Vector.replicate capacity 0#8)).map fun bytes =>
          .ok { bytes := bytes, size := BitVec.ofNat 16 text.length }

theorem continuation_iff (byte : Byte) : continuation byte = true ↔ Tail byte := by
  revert byte
  unfold Tail
  decide +kernel

section

variable {before rest : List Byte}

theorem getElem?_behind (before rest : List Byte) (offset : ℕ) :
    (before ++ rest)[before.length + offset]? = rest[offset]? := by
  rw [List.getElem?_append_right (Nat.le_add_right _ _), Nat.add_sub_cancel_left]

/-- What the step at a position does depends on what is behind it. -/
theorem utf8Step_append (before rest : List Byte) :
    utf8Step (before ++ rest) before.length = utf8Step rest 0 := by
  have hlen (offset : ℕ) : (before.length + offset ≥ (before ++ rest).length) =
      (0 + offset ≥ rest.length) := by
    rw [List.length_append]
    apply propext
    omega
  have hf : (before ++ rest)[before.length]? = rest[0]? := getElem?_behind before rest 0
  unfold utf8Step
  simp [hf, getElem?_behind]

/-- What a step finds at the start of a text: it reads nothing behind the end, and it goes on
over one encoding, as the recursive form does. -/
def StepSpec (text : List Byte) : Prop :=
  (utf8Step text 0 = some none ∧ validUtf8 text = false) ∨
    ∃ bytes behind, text = bytes ++ behind ∧ Encoded bytes ∧
      utf8Step text 0 = some (some bytes.length) ∧ validUtf8 text = validUtf8 behind

/-- A step that rejects the text by a condition on its first bytes. -/
theorem stepSpec_of_guard (bytes : List Byte) (rejects : Bool)
    (hstep : utf8Step (bytes ++ rest) 0 = if rejects then some none else some (some bytes.length))
    (hv : validUtf8 (bytes ++ rest) = if rejects then false else validUtf8 rest)
    (henc : rejects = false → Encoded bytes) : StepSpec (bytes ++ rest) := by
  cases rejects with
  | false => exact .inr ⟨bytes, rest, rfl, henc rfl, hstep, hv⟩
  | true => exact .inl ⟨hstep, hv⟩

variable {first : Byte} {bytes : List Byte}

theorem stepSpec_one (h : first ≤ 0x7f#8) : StepSpec (first :: rest) := by
  refine .inr ⟨[first], rest, rfl, .one ?_, ?_, ?_⟩
  · rw [BitVec.le_def] at h
    exact Nat.lt_succ_of_le h
  · unfold utf8Step
    rw [List.getElem?_cons_zero, bind_some, if_pos h]
    rfl
  · rw [validUtf8.eq_def]
    simp only [if_pos h]

theorem stepSpec_two (hascii : ¬ first ≤ 0x7f#8) (h : 0xc2#8 ≤ first ∧ first ≤ 0xdf#8) :
    StepSpec (first :: rest) := by
  rcases rest with _ | ⟨second, rest⟩
  · refine .inl ⟨by simp [utf8Step, hascii], ?_⟩
    rw [validUtf8.eq_def]
    simp [if_neg hascii]
  refine stepSpec_of_guard [first, second] (!continuation second) ?_ ?_ ?_
  · simp [utf8Step, hascii, h]
  · rw [validUtf8.eq_def]
    simp only [List.cons_append, List.nil_append, if_neg hascii, if_pos h]
    cases continuation second <;> rfl
  intro hrejects
  rw [not_eq_false', continuation_iff] at hrejects
  exact .two h hrejects

theorem stepSpec_three (hascii : ¬ first ≤ 0x7f#8) (htwo : ¬ (0xc2#8 ≤ first ∧ first ≤ 0xdf#8))
    (h : 0xe0#8 ≤ first ∧ first ≤ 0xef#8) : StepSpec (first :: rest) := by
  rcases rest with _ | ⟨second, _ | ⟨third, rest⟩⟩
  iterate 2
    · refine .inl ⟨by simp [utf8Step, hascii, htwo], ?_⟩
      rw [validUtf8.eq_def]
      simp [if_neg hascii, if_neg htwo]
  refine stepSpec_of_guard [first, second, third] (!continuation second || !continuation third ||
      (first == 0xe0#8 && second < 0xa0#8) || (first == 0xed#8 && 0xa0#8 ≤ second)) ?_ ?_ ?_
  · simp [utf8Step, hascii, htwo, h]
  · rw [validUtf8.eq_def]
    simp [List.cons_append, List.nil_append, if_neg hascii, if_neg htwo, if_pos h]
  intro hrejects
  simp only [or_eq_false_iff, not_eq_false', continuation_iff, and_eq_false_imp,
    beq_iff_eq, decide_eq_false_iff_not] at hrejects
  obtain ⟨⟨⟨hsec, hthird⟩, hlong⟩, hsurrogate⟩ := hrejects
  refine .three h hsec hthird (fun hf => ?_) (fun hf => ?_)
  · have := hlong (BitVec.eq_of_toNat_eq hf)
    bv_omega
  · have := hsurrogate (BitVec.eq_of_toNat_eq hf)
    bv_omega

theorem stepSpec_four (hascii : ¬ first ≤ 0x7f#8) (htwo : ¬ (0xc2#8 ≤ first ∧ first ≤ 0xdf#8))
    (hthree : ¬ (0xe0#8 ≤ first ∧ first ≤ 0xef#8)) (h : 0xf0#8 ≤ first ∧ first ≤ 0xf4#8) :
    StepSpec (first :: rest) := by
  rcases rest with _ | ⟨second, _ | ⟨third, _ | ⟨fourth, rest⟩⟩⟩
  iterate 3
    · refine .inl ⟨by simp [utf8Step, hascii, htwo, hthree], ?_⟩
      rw [validUtf8.eq_def]
      simp [if_neg hascii, if_neg htwo, if_neg hthree]
  refine stepSpec_of_guard [first, second, third, fourth]
    (!continuation second || !continuation third || !continuation fourth ||
      (first == 0xf0#8 && second < 0x90#8) || (first == 0xf4#8 && 0x90#8 ≤ second)) ?_ ?_ ?_
  · simp [utf8Step, hascii, htwo, hthree, h]
  · rw [validUtf8.eq_def]
    simp [List.cons_append, List.nil_append, if_neg hascii, if_neg htwo, if_neg hthree, if_pos h]
  intro hrejects
  simp only [or_eq_false_iff, not_eq_false', continuation_iff, and_eq_false_imp,
    beq_iff_eq, decide_eq_false_iff_not] at hrejects
  obtain ⟨⟨⟨⟨hsec, hthird⟩, hfourth⟩, hlong⟩, hl⟩ := hrejects
  refine .four h hsec hthird hfourth (fun hf => ?_) (fun hf => ?_)
  · have := hlong (BitVec.eq_of_toNat_eq hf)
    bv_omega
  · have := hl (BitVec.eq_of_toNat_eq hf)
    bv_omega

theorem stepSpec_cons (first : Byte) (rest : List Byte) : StepSpec (first :: rest) := by
  by_cases hascii : first ≤ 0x7f#8
  · exact stepSpec_one hascii
  by_cases htwo : 0xc2#8 ≤ first ∧ first ≤ 0xdf#8
  · exact stepSpec_two hascii htwo
  by_cases hthree : 0xe0#8 ≤ first ∧ first ≤ 0xef#8
  · exact stepSpec_three hascii htwo hthree
  by_cases hfour : 0xf0#8 ≤ first ∧ first ≤ 0xf4#8
  · exact stepSpec_four hascii htwo hthree hfour
  refine .inl ⟨by simp [utf8Step, hascii, htwo, hthree, hfour], ?_⟩
  rw [validUtf8.eq_def]
  simp [if_neg hascii, if_neg htwo, if_neg hthree, if_neg hfour]

theorem encoded_length_pos (h : Encoded bytes) : 0 < bytes.length := by
  cases h <;> exact Nat.succ_pos _

/-- The walk comes to an end, reads nothing behind the text, and decides as the recursive form
does. -/
theorem scanUtf8_eq (steps : ℕ) (before rest : List Byte) (hsteps : rest.length < steps) :
    scanUtf8 (before ++ rest) steps before.length = some (validUtf8 rest) := by
  induction steps generalizing before rest with
  | zero => omega
  | succ steps ih =>
    rw [scanUtf8]
    cases rest with
    | nil =>
      rw [if_neg (by simp)]
      rfl
    | cons first rest =>
      rw [if_pos (by simp), utf8Step_append]
      rcases stepSpec_cons first rest with ⟨hstep, hv⟩ | ⟨bytes, behind, ht, hb, hstep, hv⟩
      · rw [hstep, hv]
        rfl
      have hpos := encoded_length_pos hb
      rw [hstep, hv, ht]
      rw [ht, List.length_append] at hsteps
      have hn := ih (before ++ bytes) behind (by omega)
      rw [List.append_assoc, List.length_append] at hn
      exact hn

theorem validUtf8_append (h : Encoded bytes) (rest : List Byte) :
    validUtf8 (bytes ++ rest) = validUtf8 rest := by
  rw [validUtf8.eq_def]
  cases h with
  | one ha =>
    have hascii : _ ≤ 0x7f#8 := BitVec.le_def.mpr (Nat.le_of_lt_succ ha)
    simp [if_pos hascii]
  | @two a b ha hb =>
    have hascii : ¬ a ≤ 0x7f#8 := by bv_omega
    have htwo : 0xc2#8 ≤ a ∧ a ≤ 0xdf#8 := ha
    simp [if_neg hascii, if_pos htwo, (continuation_iff b).mpr hb]
  | @three a b c ha hb hc hlong hsurrogate =>
    have hascii : ¬ a ≤ 0x7f#8 := by bv_omega
    have htwo : ¬ (0xc2#8 ≤ a ∧ a ≤ 0xdf#8) := by bv_omega
    have hthree : 0xe0#8 ≤ a ∧ a ≤ 0xef#8 := ha
    have hacc : (!continuation b || !continuation c || (a == 0xe0#8 && b < 0xa0#8) ||
        (a == 0xed#8 && 0xa0#8 ≤ b)) = false := by
      simp only [or_eq_false_iff, not_eq_false', continuation_iff, and_eq_false_imp,
        beq_iff_eq, decide_eq_false_iff_not]
      exact ⟨⟨⟨hb, hc⟩, by bv_omega⟩, by bv_omega⟩
    simp [if_neg hascii, if_neg htwo, if_pos hthree, hacc]
  | @four a b c d ha hb hc hd hlong hl =>
    have hascii : ¬ a ≤ 0x7f#8 := by bv_omega
    have htwo : ¬ (0xc2#8 ≤ a ∧ a ≤ 0xdf#8) := by bv_omega
    have hthree : ¬ (0xe0#8 ≤ a ∧ a ≤ 0xef#8) := by bv_omega
    have hfour : 0xf0#8 ≤ a ∧ a ≤ 0xf4#8 := ha
    have hacc : (!continuation b || !continuation c || !continuation d ||
        (a == 0xf0#8 && b < 0x90#8) || (a == 0xf4#8 && 0x90#8 ≤ b)) = false := by
      simp only [or_eq_false_iff, not_eq_false', continuation_iff, and_eq_false_imp,
        beq_iff_eq, decide_eq_false_iff_not]
      exact ⟨⟨⟨⟨hb, hc⟩, hd⟩, by bv_omega⟩, by bv_omega⟩
    simp [if_neg hascii, if_neg htwo, if_neg hthree, if_pos hfour, hacc]

/-- The texts that are accepted are the well-formed ones. -/
theorem validUtf8_iff (text : List Byte) : validUtf8 text = true ↔ WellFormed text := by
  constructor
  · intro h
    induction hlen : text.length using Nat.strong_induction_on generalizing text with
    | _ length ih =>
      cases text with
      | nil => exact wellFormed_nil
      | cons first rest =>
        rcases stepSpec_cons first rest with ⟨_, hv⟩ | ⟨bytes, behind, ht, hb, _, hv⟩
        · rw [hv] at h
          cases h
        have hpos := encoded_length_pos hb
        rw [hv] at h
        rw [ht, List.length_append] at hlen
        rw [ht]
        exact wellFormed_append hb (ih behind.length (by omega) behind h rfl)
  · intro h
    refine h.induction (motive := fun text => validUtf8 text = true) rfl ?_
    intro bytes rest hb hr
    rw [validUtf8_append hb, hr]

end

section

variable {capacity : ℕ}

/-- What has been copied is the text up to the position, and nothing else has changed. -/
theorem copyText_eq (text : List Byte) (steps index : ℕ) (bytes : Vector Byte capacity)
    (hsteps : index + steps = text.length) (hcap : text.length ≤ capacity)
    (hcopied : bytes.toList.take index = text.take index) :
    ∃ result, copyText text steps index bytes = some result ∧
      result.toList.take text.length = text := by
  induction steps generalizing index bytes with
  | zero =>
    refine ⟨bytes, rfl, ?_⟩
    rw [add_zero] at hsteps
    rw [← hsteps, hcopied, hsteps, List.take_length]
  | succ steps ih =>
    have hidx : index < text.length := by omega
    rw [copyText, List.getElem?_eq_getElem hidx, bind_some, dif_pos (by omega)]
    refine ih (index + 1) _ (by omega) ?_
    have hlen : index < bytes.toList.length := by
      rw [Vector.length_toList]
      omega
    rw [Vector.toList_set, List.take_add_one, List.take_add_one, List.take_set_of_le (le_refl _),
      hcopied, List.getElem?_set_self hlen, List.getElem?_eq_getElem hidx]

/-- `from` stores the texts that fit and are well formed, as they are. -/
theorem storeText_eq (hcap : capacity ≤ 65535) (text : List Byte) :
    (text.length ≤ capacity ∧ validUtf8 text = true ∧
      ∃ storage, storeText capacity text = some (.ok storage) ∧ storage.value = text) ∨
    (¬ (text.length ≤ capacity ∧ validUtf8 text = true) ∧
      ∃ error, storeText capacity text = some (.error error)) := by
  unfold storeText
  split
  · exact .inr ⟨fun h => by omega, _, rfl⟩
  have hscan := scanUtf8_eq (text.length + 1) [] text (Nat.lt_succ_self _)
  rw [List.nil_append, List.length_nil] at hscan
  rw [hscan, bind_some]
  cases hv : validUtf8 text with
  | false => exact .inr ⟨fun h => Bool.false_ne_true h.2, _, rfl⟩
  | true =>
    obtain ⟨bytes, hcopy, hb⟩ := copyText_eq text text.length 0
      (Vector.replicate capacity 0#8) (zero_add _) (by omega) rfl
    rw [if_neg (fun h => Bool.false_ne_true h.symm), hcopy, map_some]
    refine .inl ⟨by omega, rfl, _, rfl, ?_⟩
    unfold TextStorage.value
    rw [BitVec.toNat_ofNat, Nat.mod_eq_of_lt (by omega)]
    exact hb

/-- The text of the encoder's model is the one that is stored. -/
theorem storeText_from (hcap : capacity ≤ 65535) {text : List Byte} {stored : OtlpText capacity}
    (h : OtlpText.from capacity text = .ok stored) :
    ∃ storage, storeText capacity text = some (.ok storage) ∧ storage.value = stored.bytes := by
  unfold OtlpText.from at h
  split at h
  · cases h
  split at h
  · rename_i hlen hv
    cases h
    rcases storeText_eq hcap text with ⟨_, _, hstored⟩ | ⟨hrejected, _⟩
    · exact hstored
    · exact (hrejected ⟨Nat.le_of_not_lt hlen, hv⟩).elim
  · cases h

end

/-- `valid_utf8` accepts the well-formed texts and comes to an end without a read behind the
text, and `from` stores those of them that fit. -/
theorem otlpText_wellFormed (text : List Byte) :
    (∃ valid, scanUtf8 text (text.length + 1) 0 = some valid ∧ (valid = true ↔ WellFormed text)) ∧
    ∀ capacity ≤ 65535, (∃ result, storeText capacity text = some result) ∧
      ((∃ storage, storeText capacity text = some (.ok storage)) ↔
        text.length ≤ capacity ∧ WellFormed text) ∧
      ∀ storage, storeText capacity text = some (.ok storage) → storage.value = text := by
  have hscan := scanUtf8_eq (text.length + 1) [] text (Nat.lt_succ_self _)
  refine ⟨⟨_, hscan, validUtf8_iff text⟩, fun capacity hcapacity => ?_⟩
  rw [← validUtf8_iff]
  rcases storeText_eq hcapacity text with ⟨hfits, hvalid, storage, hstore, hvalue⟩ |
    ⟨hrejected, error, hstore⟩
  · refine ⟨⟨_, hstore⟩, ⟨fun _ => ⟨hfits, hvalid⟩, fun _ => ⟨storage, hstore⟩⟩, ?_⟩
    intro storage' hstore'
    rw [hstore] at hstore'
    cases hstore'
    exact hvalue
  refine ⟨⟨_, hstore⟩, ⟨?_, fun h => (hrejected h).elim⟩, ?_⟩
  · rintro ⟨storage, hstorage⟩
    rw [hstore] at hstorage
    cases hstorage
  intro storage hstorage
  rw [hstore] at hstorage
  cases hstorage

theorem otlpText_wellFormed_accent : ∃ storage, storeText 2 [0xc3#8, 0xa9#8] = some (.ok storage) ∧
      storage.value = [0xc3#8, 0xa9#8] := by
  obtain ⟨_, haccepts, hvalue⟩ := (otlpText_wellFormed [0xc3#8, 0xa9#8]).2 2 (by decide)
  obtain ⟨storage, hstorage⟩ := haccepts.mpr ⟨by decide, [0xe9], by decide, by decide⟩
  exact ⟨storage, hstorage, hvalue storage hstorage⟩

end Laghu.OtlpEncoding
