import Laghu.EvaluatorStatistics
import Laghu.MachineIntegers

/-!
What `regression_ppm` computes: the relative difference of two numbers in parts per million,
rounded towards zero. The loop divides a million times the remainder of the difference, one
bit at a time; the bits it has read times the remainder are what it has divided so far.
-/

namespace Laghu.Evaluator

open ExactWords Option BitVec
open BitVec (ofInt)

def exactDifference (baseline candidate : Word) : Option Word :=
  if candidate ≥ baseline then exactSub candidate baseline else exactSub baseline candidate

def addBelowExact (baseline addend remainder carry : Word) : Option (Word × Word) := do
  let room ← exactSub baseline addend
  if remainder ≥ room then
    let remainder ← exactSub remainder room
    let carry ← exactAdd carry 1
    some (remainder, carry)
  else
    let remainder ← exactAdd remainder addend
    some (remainder, carry)

def divideBitExact (baseline fractionSource : Word) (bit : Bool) (remainder : Word) :
    Option (Word × Word) := do
  let (remainder, carry) ← addBelowExact baseline remainder remainder 0
  if bit then addBelowExact baseline fractionSource remainder carry else some (remainder, carry)

/-- As `divideBits`, with the remainder below the baseline at the end of every round. -/
def divideBitsExact (baseline fractionSource : Word) : List Bool → Word → Word → Option Word
  | [], _, fractional => some fractional
  | bit :: bits, remainder, fractional => do
    let (remainder, carry) ← divideBitExact baseline fractionSource bit remainder
    if ¬ remainder < baseline then none
    else
      let limit ← exactSub maximumWord carry
      if fractional > limit / 2 then none
      else
        let doubled ← exactMul fractional 2
        let fractional ← exactAdd doubled carry
        divideBitsExact baseline fractionSource bits remainder fractional

/-- `regression_ppm` with a positive baseline, in words that may not wrap: `none` is an operation
that would, a remainder that is not below the baseline, or an overflow test in the loop that
fires. -/
def regressionPpmExact (baseline candidate : Word) (higherIsBetter : Bool) : Option (Option ℤ) := do
  let candidateIsRegression :=
    if higherIsBetter then decide (candidate < baseline) else decide (candidate > baseline)
  let difference ← exactDifference baseline candidate
  let whole := difference / baseline
  let fractionSource := difference % baseline
  let fractional ← divideBitsExact baseline fractionSource millionBits 0 0
  let limit ← exactSub (BitVec.ofInt 64 unboundedRegressionPpm) fractional
  if whole > limit / 1000000 then some none
  else
    let product ← exactMul whole 1000000
    let magnitude ← exactAdd product fractional
    some (some (if candidateIsRegression then magnitude.toInt else -magnitude.toInt))

section

variable {baseline source remainder : Word}

variable {carry addend fractional : Word}

/-- Nothing wraps, and the remainder stays below the baseline. -/
theorem addBelow_spec (haddend : addend < baseline) (hrem : remainder < baseline)
    (hcarry : carry.toNat ≤ 1) :
    (addBelow baseline addend remainder carry).2.toNat * baseline.toNat +
        (addBelow baseline addend remainder carry).1.toNat =
      carry.toNat * baseline.toNat + (remainder.toNat + addend.toNat) ∧
    (addBelow baseline addend remainder carry).1 < baseline ∧
    (addBelow baseline addend remainder carry).2.toNat ≤ carry.toNat + 1 := by
  unfold addBelow
  split
  · have hcarries : (carry + 1).toNat = carry.toNat + 1 := by bv_omega
    have hsum : (remainder - (baseline - addend)).toNat + baseline.toNat =
        remainder.toNat + addend.toNat := by bv_omega
    refine ⟨?_, by bv_omega, hcarries.le⟩
    change (carry + 1).toNat * baseline.toNat + (remainder - (baseline - addend)).toNat = _
    rw [hcarries, Nat.add_mul]
    omega
  · have hsum : (remainder + addend).toNat = remainder.toNat + addend.toNat := by bv_omega
    exact ⟨by rw [hsum], by bv_omega, Nat.le_succ _⟩

theorem addBelow_exact (haddend : addend < baseline) (hcarry : carry.toNat ≤ 1) :
    addBelowExact baseline addend remainder carry =
      some (addBelow baseline addend remainder carry) := by
  have hr : addend.toNat ≤ baseline.toNat := le_of_lt haddend
  unfold addBelowExact addBelow
  rw [exactSub_of_le hr, bind_eq_bind, bind_some]
  split
  · rename_i h
    rw [exactSub_of_le (le_def.mp h)]
    have hone : carry.toNat + (1 : Word).toNat < 2 ^ 64 := by
      change carry.toNat + 1 < 2 ^ 64
      omega
    rw [exactAdd_of_lt hone]
    rfl
  · rw [exactAdd_of_lt (by bv_omega)]
    rfl

/-- One round doubles what there is to divide, adds the remainder of the difference if the bit
is set, and divides by the baseline. -/
theorem divideBit_spec (bit : Bool) (hsrc : source < baseline) (hrem : remainder < baseline) :
    (divideBit baseline source bit remainder).2.toNat * baseline.toNat +
        (divideBit baseline source bit remainder).1.toNat =
      2 * remainder.toNat + bit.toNat * source.toNat ∧
    (divideBit baseline source bit remainder).1 < baseline ∧
    (divideBit baseline source bit remainder).2.toNat ≤ 2 := by
  obtain ⟨hsum, hbelow, hcarry⟩ :=
    addBelow_spec hrem hrem (show (0 : Word).toNat ≤ 1 by decide)
  change _ = 0 * _ + _ at hsum
  change _ ≤ 0 + 1 at hcarry
  cases bit with
  | false =>
    have hdiv : divideBit baseline source false remainder =
      addBelow baseline remainder remainder 0 := rfl
    rw [hdiv]
    refine ⟨?_, hbelow, by omega⟩
    change _ = 2 * remainder.toNat + 0 * source.toNat
    omega
  | true =>
    have hdiv : divideBit baseline source true remainder =
      addBelow baseline source (addBelow baseline remainder remainder 0).1
        (addBelow baseline remainder remainder 0).2 := rfl
    obtain ⟨hsum', hbelow', hcarry'⟩ := addBelow_spec hsrc hbelow hcarry
    rw [hdiv]
    refine ⟨?_, hbelow', by omega⟩
    change _ = 2 * remainder.toNat + 1 * source.toNat
    omega

/-- The next digit fits behind those that there are. -/
theorem appendDigit (hfractional : fractional.toNat < 2 ^ 61) (hcarry : carry.toNat ≤ 2) :
    ¬ fractional > (maximumWord - carry) / 2 ∧
      (fractional * 2 + carry).toNat = 2 * fractional.toNat + carry.toNat := by
  have hmax : (maximumWord - carry).toNat = 2 ^ 64 - 1 - carry.toNat := by
    rw [show maximumWord = 18446744073709551615#64 from rfl]
    bv_omega
  constructor
  · intro hgt
    have hlt := lt_def.mp hgt
    rw [toNat_udiv, hmax] at hlt
    change (2 ^ 64 - 1 - carry.toNat) / 2 < _ at hlt
    omega
  · bv_omega

theorem divideBit_exact (bit : Bool) (hsrc : source < baseline) (hrem : remainder < baseline) :
    divideBitExact baseline source bit remainder =
      some (divideBit baseline source bit remainder) := by
  have h0 : (0 : Word).toNat ≤ 1 := by decide
  obtain ⟨_, hbelow, hcarry⟩ := addBelow_spec hrem hrem h0
  unfold divideBitExact
  rw [addBelow_exact hrem h0, bind_eq_bind, bind_some]
  cases bit with
  | false => rfl
  | true => exact addBelow_exact hsrc hcarry

/-- What the bits come to behind a number. -/
def bitsValue (value : ℕ) (bits : List Bool) : ℕ :=
  bits.foldl (fun value bit => 2 * value + bit.toNat) value

/-- The loop divides the bits it reads times the remainder of the difference. -/
theorem divideBits_spec (hsrc : source < baseline) (bits : List Bool) {value : ℕ}
    (hrem : remainder < baseline)
    (hv : value * source.toNat = fractional.toNat * baseline.toNat + remainder.toNat)
    (hsize : (value + 1) * 2 ^ bits.length ≤ 2 ^ 62) :
    ∃ result, divideBits baseline source bits remainder fractional = some result ∧
      divideBitsExact baseline source bits remainder fractional = some result ∧
      result.toNat = bitsValue value bits * source.toNat / baseline.toNat := by
  have hpositive : 0 < baseline.toNat := by bv_omega
  induction bits generalizing value remainder fractional with
  | nil =>
    refine ⟨fractional, rfl, rfl, ?_⟩
    change _ = value * source.toNat / baseline.toNat
    rw [hv, mul_comm, Nat.mul_add_div hpositive, Nat.div_eq_of_lt hrem, add_zero]
  | cons bit bits ih =>
    obtain ⟨hsum, hbelow, hcarry⟩ := divideBit_spec bit hsrc hrem
    have hfractional : fractional.toNat ≤ value := by
      refine Nat.le_of_mul_le_mul_right ?_ hpositive
      calc fractional.toNat * baseline.toNat ≤ value * source.toNat := by omega
        _ ≤ value * baseline.toNat := Nat.mul_le_mul_left value (le_of_lt hsrc)
    have hv' : value + 1 ≤ 2 ^ 61 := by
      have hpow : 2 ≤ 2 ^ (bit :: bits).length := by
        rw [List.length_cons, pow_succ]
        have hpos := Nat.two_pow_pos bits.length
        omega
      have hmul := Nat.mul_le_mul_left (value + 1) hpow
      omega
    have hsmall : fractional.toNat < 2 ^ 61 := by omega
    obtain ⟨hcheck, hn⟩ := appendDigit hsmall hcarry
    have hexact : divideBitsExact baseline source (bit :: bits) remainder fractional =
        divideBitsExact baseline source bits (divideBit baseline source bit remainder).1
          (fractional * 2 + (divideBit baseline source bit remainder).2) := by
      have hlimit : (divideBit baseline source bit remainder).2.toNat ≤ maximumWord.toNat := by
        rw [show maximumWord.toNat = 18446744073709551615 from rfl]
        omega
      obtain ⟨hdouble, hsum, _⟩ := exactMul_add (show (2 : Word).toNat = 2 from rfl)
        (show fractional.toNat * 2 + (divideBit baseline source bit remainder).2.toNat < 2 ^ 64 by
          omega)
      rw [divideBitsExact, divideBit_exact bit hsrc hrem]
      simp only [bind_eq_bind, bind_some]
      rw [if_neg (not_not.mpr hbelow), exactSub_of_le hlimit, bind_some, if_neg hcheck,
        hdouble, bind_some, hsum, bind_some]
    rw [hexact, divideBits]
    simp only [if_neg hcheck]
    refine ih hbelow ?_ ?_
    · rw [hn]
      calc (2 * value + bit.toNat) * source.toNat
          = 2 * (value * source.toNat) + bit.toNat * source.toNat := by ring
        _ = 2 * (fractional.toNat * baseline.toNat) +
            (2 * remainder.toNat + bit.toNat * source.toNat) := by rw [hv]; ring
        _ = _ := by rw [← hsum]; ring
    · have hbit : bit.toNat ≤ 1 := Bool.toNat_le bit
      calc (2 * value + bit.toNat + 1) * 2 ^ bits.length
          ≤ (2 * (value + 1)) * 2 ^ bits.length := Nat.mul_le_mul_right _ (by omega)
        _ = (value + 1) * 2 ^ (bit :: bits).length := by rw [List.length_cons, pow_succ]; ring
        _ ≤ 2 ^ 62 := hsize

theorem bitsValue_million : bitsValue 0 millionBits = 1000000 := by decide

end

/-- The relative difference in parts per million, rounded down. -/
def relativePpm (baseline candidate : ℕ) : ℕ :=
  1000000 * ((candidate : ℤ) - baseline).natAbs / baseline

/-- The candidate is worse than the baseline. -/
def Worse (higherIsBetter : Bool) (baseline candidate : ℕ) : Prop :=
  if higherIsBetter then candidate < baseline else baseline < candidate

instance (higherIsBetter : Bool) (baseline candidate : ℕ) :
    Decidable (Worse higherIsBetter baseline candidate) := by
  unfold Worse
  infer_instance

section

variable {baseline candidate : Word}

/-- The fraction of the relative difference. -/
theorem divideBits_million (difference : Word) (hpos : 0 < baseline.toNat) :
    ∃ fractional, divideBits baseline (difference % baseline) millionBits 0 0 = some fractional ∧
      divideBitsExact baseline (difference % baseline) millionBits 0 0 = some fractional ∧
      fractional.toNat < 1000000 ∧
      fractional.toNat = 1000000 * (difference.toNat % baseline.toNat) / baseline.toNat := by
  have hsrc : difference % baseline < baseline := by
    rw [lt_def, toNat_umod]
    exact Nat.mod_lt _ hpos
  have hrem : (0 : Word) < baseline := hpos
  have h0 : 0 * (difference % baseline).toNat =
      (0 : Word).toNat * baseline.toNat + (0 : Word).toNat := by simp
  have hsize : (0 + 1) * 2 ^ millionBits.length ≤ 2 ^ 62 := by decide
  obtain ⟨fractional, hdiv, hexact, hv⟩ :=
    divideBits_spec hsrc millionBits hrem h0 hsize
  rw [bitsValue_million, toNat_umod] at hv
  refine ⟨fractional, hdiv, hexact, ?_, hv⟩
  rw [hv, Nat.div_lt_iff_lt_mul hpos]
  exact Nat.mul_lt_mul_of_pos_left (Nat.mod_lt _ hpos) (by omega)

theorem difference_toNat :
    (if candidate ≥ baseline then candidate - baseline else baseline - candidate).toNat =
      ((candidate.toNat : ℤ) - baseline.toNat).natAbs := by
  split
  · bv_omega
  · bv_omega

/-- A million times a quotient and what the remainder adds to it. -/
theorem relativePpm_eq (hpos : 0 < baseline.toNat) (difference : ℕ) :
    1000000 * difference / baseline.toNat = difference / baseline.toNat * 1000000 +
        1000000 * (difference % baseline.toNat) / baseline.toNat := by
  have hsplit : 1000000 * difference = baseline.toNat * (difference / baseline.toNat * 1000000) +
      1000000 * (difference % baseline.toNat) := by
    conv_lhs => rw [← Nat.div_add_mod difference baseline.toNat]
    ring
  rw [hsplit, Nat.mul_add_div hpos]

/-- The relative difference is representable exactly if the last check passes. -/
theorem fits_iff {whole fractional : Word} (hfractional : fractional.toNat < 1000000) :
    whole > (ofInt 64 unboundedRegressionPpm - fractional) / 1000000 ↔
      2 ^ 63 - 1 < whole.toNat * 1000000 + fractional.toNat := by
  have hlimit : (ofInt 64 unboundedRegressionPpm - fractional).toNat =
      2 ^ 63 - 1 - fractional.toNat := by
    rw [show ofInt 64 unboundedRegressionPpm = 9223372036854775807#64 from rfl]
    bv_omega
  rw [gt_iff_lt, lt_def, toNat_udiv, hlimit]
  change (2 ^ 63 - 1 - fractional.toNat) / 1000000 < _ ↔ _
  omega

theorem magnitude_toInt {whole fractional : Word}
    (hf : whole.toNat * 1000000 + fractional.toNat ≤ 2 ^ 63 - 1) :
    (whole * 1000000 + fractional).toInt =
      ((whole.toNat * 1000000 + fractional.toNat : ℕ) : ℤ) := by
  have htoNat : (whole * 1000000 + fractional).toNat =
      whole.toNat * 1000000 + fractional.toNat := by bv_omega
  rw [toInt_eq_toNat_of_lt (by omega), htoNat]

theorem regressionPpm_eq (hpos : 0 < baseline.toNat) (higherIsBetter : Bool) :
    regressionPpm baseline candidate higherIsBetter =
      if relativePpm baseline.toNat candidate.toNat ≤ 2 ^ 63 - 1 then
        some (if Worse higherIsBetter baseline.toNat candidate.toNat then
          (relativePpm baseline.toNat candidate.toNat : ℤ)
          else -(relativePpm baseline.toNat candidate.toNat : ℤ))
      else none := by
  have hne : baseline ≠ 0 := by
    rintro rfl
    exact lt_irrefl 0 hpos
  obtain ⟨fractional, hdiv, _, hsmall, hfractional⟩ := divideBits_million
    (if candidate ≥ baseline then candidate - baseline else baseline - candidate) hpos
  have hwhole : ((if candidate ≥ baseline then candidate - baseline else baseline - candidate) /
      baseline).toNat = ((candidate.toNat : ℤ) - baseline.toNat).natAbs / baseline.toNat := by
    rw [toNat_udiv, difference_toNat]
  rw [difference_toNat] at hfractional
  have hrelative : relativePpm baseline.toNat candidate.toNat =
      ((if candidate ≥ baseline then candidate - baseline else baseline - candidate) /
        baseline).toNat * 1000000 + fractional.toNat := by
    rw [hwhole, hfractional]
    exact relativePpm_eq hpos _
  have hworse : (if higherIsBetter then decide (candidate < baseline)
      else decide (candidate > baseline)) =
        decide (Worse higherIsBetter baseline.toNat candidate.toNat) := by
    cases higherIsBetter <;> rfl
  unfold regressionPpm
  simp only [if_neg hne, hdiv, hworse, decide_eq_true_eq]
  by_cases hf : relativePpm baseline.toNat candidate.toNat ≤ 2 ^ 63 - 1
  · have hcheck := (fits_iff hsmall).not.mpr (by rw [← hrelative]; omega)
    rw [if_neg hcheck, if_pos hf, magnitude_toInt (by rw [← hrelative]; exact hf), ← hrelative]
  · have hcheck := (fits_iff hsmall).mpr (by rw [← hrelative]; omega)
    rw [if_pos hcheck, if_neg hf]

theorem exactDifference_eq : exactDifference baseline candidate =
      some (if candidate ≥ baseline then candidate - baseline else baseline - candidate) := by
  unfold exactDifference
  split
  · rename_i h
    rw [exactSub_of_le (le_def.mp h)]
  · rw [exactSub_of_le (by bv_omega)]

theorem regressionPpm_exact (hpos : 0 < baseline.toNat) (higherIsBetter : Bool) :
    regressionPpmExact baseline candidate higherIsBetter =
      some (regressionPpm baseline candidate higherIsBetter) := by
  have hne : baseline ≠ 0 := by
    rintro rfl
    exact lt_irrefl 0 hpos
  obtain ⟨fractional, hdiv, hexact, hsmall, _⟩ := divideBits_million
    (if candidate ≥ baseline then candidate - baseline else baseline - candidate) hpos
  have hlimit : fractional.toNat ≤ (ofInt 64 unboundedRegressionPpm).toNat := by
    rw [show (ofInt 64 unboundedRegressionPpm).toNat = 9223372036854775807 from rfl]
    omega
  unfold regressionPpmExact regressionPpm
  rw [if_neg hne, exactDifference_eq]
  generalize (if candidate ≥ baseline then candidate - baseline else baseline - candidate) =
    difference at hdiv hexact ⊢
  simp only [hdiv, bind_eq_bind]
  rw [bind_some, hexact, bind_some, exactSub_of_le hlimit, bind_some]
  split
  · rfl
  rename_i hcheck
  have hf := (fits_iff hsmall).not.mp hcheck
  obtain ⟨hprod, hsum, _⟩ := exactMul_add (show (1000000 : Word).toNat = 1000000 from rfl)
    (show (difference / baseline).toNat * 1000000 + fractional.toNat < 2 ^ 64 by omega)
  rw [hprod, bind_some, hsum, bind_some]

end

/-- With a positive baseline, the result is the relative difference, signed by whether the
candidate is worse, or an overflow if that does not fit; and the computation is exact. -/
theorem regressionPpm_floor_exact (baseline candidate : Word) (higherIsBetter : Bool)
    (hbaseline : 0 < baseline.toNat) :
    regressionPpm baseline candidate higherIsBetter =
        (if 1000000 * ((candidate.toNat : ℤ) - baseline.toNat).natAbs / baseline.toNat ≤ 2 ^ 63 - 1
        then
          some (if Worse higherIsBetter baseline.toNat candidate.toNat then
            ((1000000 * ((candidate.toNat : ℤ) - baseline.toNat).natAbs / baseline.toNat : ℕ) : ℤ)
            else
            -((1000000 * ((candidate.toNat : ℤ) - baseline.toNat).natAbs / baseline.toNat : ℕ) : ℤ))
        else none) ∧
      regressionPpmExact baseline candidate higherIsBetter =
        some (regressionPpm baseline candidate higherIsBetter) :=
  ⟨regressionPpm_eq hbaseline higherIsBetter, regressionPpm_exact hbaseline higherIsBetter⟩

theorem regressionPpm_floor_exact_third :
    regressionPpm 3 4 false = some 333333 ∧ regressionPpmExact 3 4 false = some (some 333333) := by
  have h := regressionPpm_floor_exact 3 4 false (by decide)
  have hvalue : regressionPpm 3 4 false = some 333333 := h.1.trans (by decide)
  exact ⟨hvalue, h.2.trans (congrArg some hvalue)⟩

end Laghu.Evaluator
