import Laghu.EvaluatorManifests
import Laghu.MachineIntegers
import Mathlib.Tactic.FieldSimp

/-!
What `parse_percent_ppm` reads: decimals with at most four digits behind the point, as long as
ten thousand times their value fits a word. The early test on the whole part only refuses
numbers that are far too large.
-/

namespace Laghu.Evaluator

open JsonTexts ExactWords List Option
open BigEndian (Byte)

/-- The whole part with operations that may not wrap: `none` is one that would. -/
def parseWholeExact (whole : Word) : Text → Option (Option (Word × Text))
  | [] => some (some (whole, []))
  | character :: rest =>
    if isDigit character then
      (exactSub maximumWord 9).bind fun limit =>
        if whole > limit / 10 then some none
        else
          (exactMul whole 10).bind fun product =>
            (exactAdd product (digitValue character)).bind fun next => parseWholeExact next rest
    else some (some (whole, character :: rest))

def parseFractionExact (fraction : Word) : ℕ → Text → Option (Word × ℕ × Text)
  | 0, rest => some (fraction, 0, rest)
  | digits + 1, [] => some (fraction, digits + 1, [])
  | digits + 1, character :: rest =>
    if isDigit character then
      (exactMul fraction 10).bind fun product =>
        (exactAdd product (digitValue character)).bind fun next =>
          parseFractionExact next digits rest
    else some (fraction, digits + 1, character :: rest)

def scaleFractionExact (fraction : Word) : ℕ → Option Word
  | 0 => some fraction
  | digits + 1 => (exactMul fraction 10).bind fun next => scaleFractionExact next digits

def parsePointExact : Text → Option (Option (Word × ℕ))
  | [] => some (some (0, 4))
  | point :: digits =>
    if point ≠ 0x2e#8 then some none
    else
      (parseFractionExact 0 4 digits).map fun (fraction, missing, rest) =>
        if missing = 4 ∨ rest ≠ [] then none else some (fraction, missing)

/-- `parse_percent_ppm` with operations that may not wrap. -/
def parsePercentPpmExact (input : Text) : Option (Option Word) :=
  (parseWholeExact 0 input).bind fun found =>
    match found with
    | none => some none
    | some (whole, rest) =>
      if rest.length = input.length then some none
      else
        (parsePointExact rest).bind fun found =>
          match found with
          | none => some none
          | some (fraction, missing) =>
            (scaleFractionExact fraction missing).bind fun fraction =>
              (exactSub maximumWord fraction).bind fun limit =>
                if whole > limit / percentPpm then some none
                else
                  (exactMul whole percentPpm).bind fun product =>
                    (exactAdd product fraction).map some

/-- What the digits come to behind a number. -/
def accumulate (value : ℕ) (digits : Text) : ℕ :=
  digits.foldl (fun v d => v * 10 + (d.toNat - 0x30)) value

section

variable {digits rest : Text} {character : Byte}

theorem accumulate_eq (value : ℕ) (digits : Text) :
    accumulate value digits = value * 10 ^ digits.length + decimalValue digits := by
  induction digits using List.reverseRecOn with
  | nil =>
    change value = value * 10 ^ 0 + 0
    omega
  | append_singleton digits d ih =>
    have hv : accumulate value (digits ++ [d]) =
        accumulate value digits * 10 + (d.toNat - 0x30) := by simp [accumulate]
    have hdec : decimalValue (digits ++ [d]) =
        decimalValue digits * 10 + (d.toNat - 0x30) := by simp [decimalValue]
    rw [hv, hdec, ih, length_append, length_singleton, pow_succ]
    ring

theorem le_accumulate (value : ℕ) (digits : Text) : value ≤ accumulate value digits := by
  rw [accumulate_eq]
  exact Nat.le_add_right_of_le (Nat.le_mul_of_pos_right value (Nat.pos_of_ne_zero (by positivity)))

theorem digitValue_toNat (h : isDigit character = true) :
    (digitValue character).toNat = character.toNat - 0x30 ∧ (digitValue character).toNat ≤ 9 := by
  simp only [isDigit, Bool.and_eq_true, decide_eq_true_eq, BitVec.le_def] at h
  have hlow : 0x30 ≤ character.toNat := h.1
  have hhigh : character.toNat ≤ 0x39 := h.2
  unfold digitValue
  rw [BitVec.toNat_ofNat]
  omega

/-- The number with a digit behind it, where it fits. -/
theorem appendDecimal (value : Word) (hdigit : isDigit character = true)
    (hf : value.toNat * 10 + 9 < 2 ^ 64) :
    exactMul value 10 = some (value * 10) ∧
      exactAdd (value * 10) (digitValue character) = some (value * 10 + digitValue character) ∧
      (value * 10 + digitValue character).toNat = value.toNat * 10 + (character.toNat - 0x30) := by
  obtain ⟨hv, hle⟩ := digitValue_toNat hdigit
  have hsum : value.toNat * 10 + (digitValue character).toNat < 2 ^ 64 := by omega
  rw [← hv]
  exact exactMul_add (show (10 : Word).toNat = 10 from rfl) hsum

theorem wholeLimit (whole : Word) : exactSub maximumWord 9 = some (maximumWord - 9) ∧
      (whole > (maximumWord - 9) / 10 ↔ 1844674407370955160 < whole.toNat) := by
  refine ⟨exactSub_of_le (by decide), ?_⟩
  rw [gt_iff_lt, BitVec.lt_def, BitVec.toNat_udiv,
    show (maximumWord - 9).toNat / (10 : Word).toNat = 1844674407370955160 by decide]

/-- Either the whole part is read, or it is far too large. -/
theorem parseWhole_spec (hdigits : ∀ c ∈ digits, isDigit c = true) (hended : Ended rest)
    (whole : Word) :
    parseWholeExact whole (digits ++ rest) = some (parseWhole whole (digits ++ rest)) ∧
      ((parseWhole whole (digits ++ rest) = none ∧
        18446744073709551610 ≤ accumulate whole.toNat digits) ∨
      ∃ result, parseWhole whole (digits ++ rest) = some (result, rest) ∧
        result.toNat = accumulate whole.toNat digits) := by
  induction digits generalizing whole with
  | nil =>
    cases rest with
    | nil => exact ⟨rfl, .inr ⟨whole, rfl, rfl⟩⟩
    | cons c rest =>
      have hc : ¬ isDigit c = true := by rw [hended c rfl]; exact Bool.false_ne_true
      refine ⟨?_, .inr ⟨whole, if_neg hc, rfl⟩⟩
      change (if isDigit c = true then _ else _) = some (if isDigit c = true then _ else _)
      rw [if_neg hc, if_neg hc]
  | cons c digits ih =>
    rw [forall_mem_cons] at hdigits
    obtain ⟨hc, hdigits⟩ := hdigits
    obtain ⟨hlimit, hgt⟩ := wholeLimit whole
    have hparse : parseWhole whole (c :: digits ++ rest) =
        if whole > (maximumWord - 9) / 10 then none
        else parseWhole (whole * 10 + digitValue c) (digits ++ rest) := if_pos hc
    have hexact : parseWholeExact whole (c :: digits ++ rest) =
        (exactSub maximumWord 9).bind fun limit =>
          if whole > limit / 10 then some none
          else
            (exactMul whole 10).bind fun product =>
              (exactAdd product (digitValue c)).bind fun next =>
                parseWholeExact next (digits ++ rest) := if_pos hc
    rw [hparse, hexact, hlimit, bind_some]
    by_cases hl : 1844674407370955160 < whole.toNat
    · rw [if_pos (hgt.mpr hl), if_pos (hgt.mpr hl)]
      refine ⟨rfl, .inl ⟨rfl, ?_⟩⟩
      refine le_trans ?_ (le_accumulate (whole.toNat * 10 + (c.toNat - 0x30)) digits)
      omega
    rw [if_neg (hgt.not.mpr hl), if_neg (hgt.not.mpr hl)]
    obtain ⟨hprod, hsum, hv⟩ := appendDecimal whole hc (by omega)
    rw [hprod, bind_some, hsum, bind_some]
    have hr := ih hdigits (whole * 10 + digitValue c)
    rw [hv] at hr
    exact hr

/-- At most as many digits as asked for are read, and they fit. -/
theorem parseFraction_spec (hdigits : ∀ c ∈ digits, isDigit c = true) {count : ℕ}
    (hlen : digits.length ≤ count) (hended : digits.length < count → Ended rest)
    {fraction : Word} (hf : (fraction.toNat + 1) * 10 ^ count ≤ 10 ^ 4) :
    ∃ result, parseFraction fraction count (digits ++ rest) =
        (result, count - digits.length, rest) ∧
      parseFractionExact fraction count (digits ++ rest) =
        some (result, count - digits.length, rest) ∧
      result.toNat = accumulate fraction.toNat digits ∧
      result.toNat * 10 ^ (count - digits.length) < 10 ^ 4 := by
  induction digits generalizing count fraction with
  | nil =>
    have hsmall : fraction.toNat * 10 ^ count < 10 ^ 4 := by
      have hpow := Nat.pos_of_ne_zero (pow_ne_zero count (show (10 : ℕ) ≠ 0 by decide))
      rw [Nat.add_mul] at hf
      omega
    cases count with
    | zero => exact ⟨fraction, rfl, rfl, rfl, hsmall⟩
    | succ count =>
      cases rest with
      | nil => exact ⟨fraction, rfl, rfl, rfl, hsmall⟩
      | cons c rest =>
        have hc : ¬ isDigit c = true := by
          rw [hended (Nat.succ_pos count) c rfl]
          exact Bool.false_ne_true
        exact ⟨fraction, if_neg hc, if_neg hc, rfl, hsmall⟩
  | cons c digits ih =>
    rw [forall_mem_cons] at hdigits
    obtain ⟨hc, hdigits⟩ := hdigits
    obtain ⟨count, rfl⟩ : ∃ more, count = more + 1 :=
      ⟨count - 1, by rw [length_cons] at hlen; omega⟩
    have hpow := Nat.pos_of_ne_zero (pow_ne_zero count (show (10 : ℕ) ≠ 0 by decide))
    have hn : (fraction.toNat + 1) * 10 ^ (count + 1) =
        (fraction.toNat * 10 + 10) * 10 ^ count := by
      rw [pow_succ]
      ring
    have hsmall : fraction.toNat * 10 + 10 ≤ 10 ^ 4 := by
      rw [hn] at hf
      exact le_trans (Nat.le_mul_of_pos_right _ hpow) hf
    obtain ⟨hprod, hsum, hv⟩ := appendDecimal fraction hc (by omega)
    obtain ⟨_, hnine⟩ := digitValue_toNat hc
    have hf' : ((fraction * 10 + digitValue c).toNat + 1) * 10 ^ count ≤ 10 ^ 4 := by
      rw [hn] at hf
      refine le_trans (Nat.mul_le_mul_right _ ?_) hf
      have hdigit := (digitValue_toNat hc).1
      omega
    rw [length_cons] at hlen hended
    obtain ⟨result, hparse, hexact, hres, hbound⟩ :=
      ih hdigits (Nat.le_of_succ_le_succ hlen) (fun h => hended (Nat.succ_lt_succ h)) hf'
    rw [hv] at hres
    rw [length_cons, Nat.succ_sub_succ]
    refine ⟨result, (if_pos hc).trans hparse, (if_pos hc).trans ?_, hres, hbound⟩
    rw [hprod, bind_some, hsum, bind_some]
    exact hexact

theorem scaleFraction_spec {fraction : Word} (count : ℕ)
    (hf : fraction.toNat * 10 ^ count < 10 ^ 4) :
    scaleFractionExact fraction count = some (scaleFraction fraction count) ∧
      (scaleFraction fraction count).toNat = fraction.toNat * 10 ^ count := by
  induction count generalizing fraction with
  | zero => exact ⟨rfl, by rw [scaleFraction, pow_zero, mul_one]⟩
  | succ count ih =>
    have hpow := Nat.pos_of_ne_zero (pow_ne_zero count (show (10 : ℕ) ≠ 0 by decide))
    have hn : fraction.toNat * 10 ^ (count + 1) = fraction.toNat * 10 * 10 ^ count := by
      rw [pow_succ]
      ring
    have hsmall : fraction.toNat * 10 < 10 ^ 4 := by
      rw [hn] at hf
      exact lt_of_le_of_lt (Nat.le_mul_of_pos_right _ hpow) hf
    obtain ⟨hprod, hv⟩ := exactMul_of_lt (x := fraction)
      (show (10 : Word).toNat = 10 from rfl) (by omega)
    rw [hn, ← hv] at hf
    obtain ⟨hexact, hscale⟩ := ih hf
    rw [scaleFractionExact, hprod, bind_some, hexact]
    refine ⟨rfl, ?_⟩
    rw [scaleFraction, hscale, hv, hn]

end

/-- The point and what is behind it: nothing, or one to four digits. -/
inductive FractionText : Text → Text → Prop
  | none : FractionText [] []
  | digits {fraction : Text} (hdigits : ∀ c ∈ fraction, isDigit c = true)
      (hsome : 1 ≤ fraction.length) (hfour : fraction.length ≤ 4) :
      FractionText (0x2e#8 :: fraction) fraction

/-- One or more digits, and perhaps a point and one to four digits. -/
structure PercentText (input whole fraction : Text) : Prop where
  digits : ∀ c ∈ whole, isDigit c = true
  nonempty : whole ≠ []
  text : ∃ rest, input = whole ++ rest ∧ FractionText rest fraction

/-- The number that is written there. -/
def percent (whole fraction : Text) : ℚ :=
  decimalValue whole + decimalValue fraction / 10 ^ fraction.length

/-- Ten thousand times the number. -/
def percentScaled (whole fraction : Text) : ℕ :=
  decimalValue whole * 10 ^ 4 + decimalValue fraction * 10 ^ (4 - fraction.length)

section

variable {input whole fraction rest : Text}

theorem FractionText.length_le (h : FractionText rest fraction) : fraction.length ≤ 4 := by
  cases h with
  | none => exact Nat.zero_le 4
  | digits _ _ hfour => exact hfour

theorem FractionText.ended (h : FractionText rest fraction) : Ended rest := by
  intro c hc
  cases h with
  | none => cases hc
  | digits _ _ _ =>
    obtain rfl := some.inj hc
    decide

theorem percentScaled_eq (h : fraction.length ≤ 4) :
    (percentScaled whole fraction : ℚ) = percent whole fraction * 10 ^ 4 := by
  have hpow : (10 : ℚ) ^ 4 = 10 ^ fraction.length * 10 ^ (4 - fraction.length) := by
    rw [← pow_add, Nat.add_sub_cancel' h]
  have hfraction : (decimalValue fraction : ℚ) / 10 ^ fraction.length * 10 ^ 4 =
      decimalValue fraction * 10 ^ (4 - fraction.length) := by
    rw [hpow]
    field_simp
  unfold percentScaled percent
  rw [add_mul, hfraction]
  push_cast
  ring

/-- What there is behind the whole part is read if it is a fraction. -/
theorem parsePoint_spec (h : FractionText rest fraction) :
    ∃ result, parsePoint rest = some (result, 4 - fraction.length) ∧
      parsePointExact rest = some (some (result, 4 - fraction.length)) ∧
      result.toNat = decimalValue fraction ∧
      result.toNat * 10 ^ (4 - fraction.length) < 10 ^ 4 := by
  cases h with
  | none => exact ⟨0, rfl, rfl, rfl, by decide⟩
  | digits hdigits hsome hfour =>
    have hone : ((0 : Word).toNat + 1) * 10 ^ 4 ≤ 10 ^ 4 := by decide
    have hnil : fraction.length < 4 → Ended [] := fun _ c hc => by cases hc
    obtain ⟨result, hparse, hexact, hv, hf⟩ := parseFraction_spec hdigits hfour hnil hone
    rw [append_nil] at hparse hexact
    have hmissing : ¬ (4 - fraction.length = 4 ∨ ([] : Text) ≠ []) := by
      rintro (hfour' | hne)
      · omega
      · exact hne rfl
    refine ⟨result, ?_, ?_, hv, hf⟩
    · unfold parsePoint
      simp only [hparse]
      rw [if_neg (not_not.mpr rfl), if_neg hmissing]
    · rw [parsePointExact, if_neg (not_not.mpr rfl), hexact]
      exact congrArg some (if_neg hmissing)

/-- Every text begins with some digits, as many as are asked for if there are. -/
theorem exists_digits (count : ℕ) (text : Text) :
    ∃ digits rest, text = digits ++ rest ∧ (∀ c ∈ digits, isDigit c = true) ∧
      digits.length ≤ count ∧ (digits.length < count → Ended rest) := by
  induction count generalizing text with
  | zero => exact ⟨[], text, rfl, forall_mem_nil _, le_refl 0, fun h => by cases h⟩
  | succ count ih =>
    cases text with
    | nil => exact ⟨[], [], rfl, forall_mem_nil _, Nat.zero_le _, fun _ c hc => by cases hc⟩
    | cons c text =>
      by_cases hc : isDigit c = true
      · obtain ⟨digits, rest, rfl, hdigits, hlen, hended⟩ := ih text
        refine ⟨c :: digits, rest, rfl, forall_mem_cons.mpr ⟨hc, hdigits⟩, ?_, ?_⟩
        · rw [length_cons]
          omega
        intro hlt
        rw [length_cons] at hlt
        exact hended (by omega)
      · refine ⟨[], c :: text, rfl, forall_mem_nil _, Nat.zero_le _, fun _ other ho => ?_⟩
        rw [← some.inj ho]
        exact Bool.eq_false_iff.mpr hc

theorem parsePoint_none (h : ∀ fraction, ¬ FractionText rest fraction) :
    parsePoint rest = none ∧ parsePointExact rest = some none := by
  cases rest with
  | nil => exact (h [] .none).elim
  | cons point text =>
    rw [parsePoint, parsePointExact]
    by_cases hpoint : point = 0x2e#8
    · obtain ⟨digits, rest, rfl, hdigits, hlen, hended⟩ := exists_digits 4 text
      have hmissing : 4 - digits.length = 4 ∨ rest ≠ [] := by
        by_contra hall
        obtain ⟨hsome, hr⟩ := not_or.mp hall
        have hone : 1 ≤ digits.length := by omega
        rw [not_not.mp hr, hpoint, append_nil] at h
        exact h digits (.digits hdigits hone hlen)
      have hone : ((0 : Word).toNat + 1) * 10 ^ 4 ≤ 10 ^ 4 := by decide
      obtain ⟨result, hparse, hexact, _, _⟩ := parseFraction_spec hdigits hlen hended hone
      rw [if_neg (not_not.mpr hpoint), if_neg (not_not.mpr hpoint), hexact]
      simp only [hparse]
      exact ⟨if_pos hmissing, congrArg some (if_pos hmissing)⟩
    · rw [if_pos hpoint, if_pos hpoint]
      exact ⟨rfl, rfl⟩

theorem PercentText.scaled_eq (h : PercentText input whole fraction) :
    (percentScaled whole fraction : ℚ) = percent whole fraction * 10 ^ 4 := by
  obtain ⟨rest, _, hr⟩ := h.text
  exact percentScaled_eq hr.length_le

theorem PercentText.fits_iff (h : PercentText input whole fraction) :
    percent whole fraction * 10 ^ 4 ≤ 2 ^ 64 - 1 ↔ percentScaled whole fraction ≤ 2 ^ 64 - 1 := by
  have hlimit : (2 : ℚ) ^ 64 - 1 = ((2 ^ 64 - 1 : ℕ) : ℚ) := by norm_num
  rw [← h.scaled_eq, hlimit, Nat.cast_le]

/-- The last check passes exactly if ten thousand times the number fits a word. -/
theorem percentFits (number : Word) {part : Word} (hpart : part.toNat < 10 ^ 4) :
    exactSub maximumWord part = some (maximumWord - part) ∧
      (number > (maximumWord - part) / percentPpm ↔
        2 ^ 64 - 1 < number.toNat * 10 ^ 4 + part.toNat) := by
  have hmax : maximumWord.toNat = 2 ^ 64 - 1 := rfl
  have hle : part.toNat ≤ maximumWord.toNat := by omega
  refine ⟨exactSub_of_le hle, ?_⟩
  rw [gt_iff_lt, BitVec.lt_def, BitVec.toNat_udiv, BitVec.toNat_sub_of_le (BitVec.le_def.mpr hle),
    hmax, show percentPpm.toNat = 10000 from rfl]
  omega

/-- A text that is a percentage is accepted exactly if it fits. -/
theorem parsePercentPpm_percent (h : PercentText input whole fraction) :
    parsePercentPpmExact input = some (parsePercentPpm input) ∧
      ((parsePercentPpm input = none ∧ 2 ^ 64 - 1 < percentScaled whole fraction) ∨
        ∃ output, parsePercentPpm input = some output ∧
          output.toNat = percentScaled whole fraction) := by
  obtain ⟨rest, rfl, hr⟩ := h.text
  obtain ⟨hexact, hwhole⟩ := parseWhole_spec h.digits hr.ended 0
  rw [show accumulate (0 : Word).toNat whole = decimalValue whole from rfl] at hwhole
  unfold parsePercentPpmExact parsePercentPpm
  rw [hexact, bind_some, bind_eq_bind]
  rcases hwhole with ⟨hn, hl⟩ | ⟨number, hnum, hv⟩
  · rw [hn]
    refine ⟨rfl, .inl ⟨rfl, ?_⟩⟩
    unfold percentScaled
    omega
  have hlen : rest.length ≠ (whole ++ rest).length := by
    have hpos := length_pos_iff.mpr h.nonempty
    rw [length_append]
    omega
  obtain ⟨part, hpoint, hpointExact, hpart, hsmall⟩ := parsePoint_spec hr
  obtain ⟨hscaleExact, hscale⟩ := scaleFraction_spec _ hsmall
  rw [← hscale] at hsmall
  obtain ⟨hlimit, hf⟩ := percentFits number hsmall
  have hscaled : percentScaled whole fraction =
      number.toNat * 10 ^ 4 + (scaleFraction part (4 - fraction.length)).toNat := by
    rw [hscale, hpart, hv]
    rfl
  rw [hnum, bind_some]
  simp only [if_neg hlen]
  rw [hpoint, hpointExact, bind_some, bind_eq_bind, bind_some]
  simp only [hscaleExact]
  rw [bind_some, hlimit, bind_some, hscaled]
  split
  · rename_i hl
    exact ⟨rfl, .inl ⟨rfl, hf.mp hl⟩⟩
  rename_i hl
  have hbound := hf.not.mp hl
  obtain ⟨hprod, hsum, hres⟩ := exactMul_add (x := number)
    (z := scaleFraction part (4 - fraction.length))
    (show percentPpm.toNat = 10 ^ 4 from rfl) (by omega)
  rw [hprod, bind_some, hsum]
  exact ⟨rfl, .inr ⟨_, rfl, hres⟩⟩

/-- A text that is no percentage is refused. -/
theorem parsePercentPpm_none (h : ∀ whole fraction, ¬ PercentText input whole fraction) :
    parsePercentPpm input = none ∧ parsePercentPpmExact input = some none := by
  have hdigits : ∀ c ∈ input.takeWhile isDigit, isDigit c = true :=
    List.all_eq_true.mp all_takeWhile
  have hended : Ended (input.dropWhile isDigit) := by
    intro c hc
    have hnot := head?_dropWhile_not isDigit input
    rw [hc] at hnot
    simpa using hnot
  obtain ⟨hexact, hwhole⟩ := parseWhole_spec hdigits hended 0
  rw [takeWhile_append_dropWhile] at hexact hwhole
  unfold parsePercentPpmExact parsePercentPpm
  rw [hexact, bind_some, bind_eq_bind]
  rcases hwhole with ⟨hn, _⟩ | ⟨number, hnum, _⟩
  · rw [hn]
    exact ⟨rfl, rfl⟩
  rw [hnum, bind_some]
  by_cases hlen : (input.dropWhile isDigit).length = input.length
  · simp only [if_pos hlen]
    exact ⟨trivial, trivial⟩
  have hnonempty : input.takeWhile isDigit ≠ [] := by
    intro hnil
    have hsplit := congrArg List.length (takeWhile_append_dropWhile (p := isDigit) (l := input))
    rw [hnil] at hsplit
    exact hlen hsplit
  have hfraction : ∀ fraction, ¬ FractionText (input.dropWhile isDigit) fraction :=
    fun fraction hfraction => h (input.takeWhile isDigit) fraction
      ⟨hdigits, hnonempty, _, takeWhile_append_dropWhile.symm, hfraction⟩
  obtain ⟨hpoint, hpointExact⟩ := parsePoint_none hfraction
  simp only [if_neg hlen, hpoint, hpointExact]
  exact ⟨rfl, rfl⟩

end

/-- Exactly the percentages are accepted whose ten thousandfold fits a word, with exactly that
value; and nothing wraps on the way. -/
theorem parsePercentPpm_iff_percent (input : Text) :
    ((∃ output, parsePercentPpm input = some output) ↔
      ∃ whole fraction, PercentText input whole fraction ∧
        percent whole fraction * 10 ^ 4 ≤ 2 ^ 64 - 1) ∧
    (∀ output whole fraction, parsePercentPpm input = some output →
      PercentText input whole fraction →
      (output.toNat : ℚ) = percent whole fraction * 10 ^ 4) ∧
    parsePercentPpmExact input = some (parsePercentPpm input) := by
  refine ⟨⟨?_, ?_⟩, ?_, ?_⟩
  · rintro ⟨output, houtput⟩
    by_cases h : ∃ whole fraction, PercentText input whole fraction
    · obtain ⟨whole, fraction, htext⟩ := h
      refine ⟨whole, fraction, htext, htext.fits_iff.mpr ?_⟩
      obtain ⟨_, ⟨hnone, _⟩ | ⟨result, _, hvalue⟩⟩ := parsePercentPpm_percent htext
      · rw [hnone] at houtput
        cases houtput
      · rw [← hvalue]
        exact Nat.le_pred_of_lt result.isLt
    · obtain ⟨hnone, _⟩ := parsePercentPpm_none fun whole fraction htext =>
        h ⟨whole, fraction, htext⟩
      rw [hnone] at houtput
      cases houtput
  · rintro ⟨whole, fraction, htext, hfits⟩
    obtain ⟨_, ⟨_, hlarge⟩ | ⟨output, houtput, _⟩⟩ := parsePercentPpm_percent htext
    · exact (not_lt.mpr (htext.fits_iff.mp hfits) hlarge).elim
    · exact ⟨output, houtput⟩
  · intro output whole fraction houtput htext
    obtain ⟨_, ⟨hnone, _⟩ | ⟨result, hresult, hvalue⟩⟩ := parsePercentPpm_percent htext
    · rw [hnone] at houtput
      cases houtput
    · rw [hresult] at houtput
      rw [← some.inj houtput, hvalue, htext.scaled_eq]
  by_cases h : ∃ whole fraction, PercentText input whole fraction
  · obtain ⟨whole, fraction, htext⟩ := h
    exact (parsePercentPpm_percent htext).1
  obtain ⟨hnone, hexact⟩ := parsePercentPpm_none fun whole fraction htext =>
    h ⟨whole, fraction, htext⟩
  rw [hnone, hexact]

theorem parsePercentPpm_iff_percent_sample : percent (ascii "2") (ascii "5") * 10 ^ 4 = 25000 := by
  have hoption : parsePercentPpm (ascii "2.5") = some 25000 := by decide
  have htext : PercentText (ascii "2.5") (ascii "2") (ascii "5") :=
    ⟨by decide, by decide, ascii ".5", rfl, .digits (by decide) (by decide) (by decide)⟩
  exact ((parsePercentPpm_iff_percent (ascii "2.5")).2.1 25000 _ _ hoption htext).symm

end Laghu.Evaluator
