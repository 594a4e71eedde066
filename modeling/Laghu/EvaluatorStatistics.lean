import Laghu.EvaluatorManifests

/-!
The evaluator's statistics: resamples of two series with a fixed pseudo-random sequence, how
much worse the candidate is in each, in parts per million, and the interval that leaves out
an equal share of them at both ends.
-/

namespace Laghu.Evaluator

def bootstrapResamples : ℕ := 10000
def fixedSeed : Word := 0x6c616768755f3832#64

/-- The next state and the number drawn. -/
def nextRandom (state : Word) : Word × Word :=
  let state := state ^^^ (state >>> 12)
  let state := state ^^^ (state <<< 25)
  let state := state ^^^ (state >>> 27)
  (state, state * 2685821657736338717#64)

/-- `sample_index`, and the state behind it. -/
def drawIndex (count : ℕ) (state : Word) : Word × ℕ :=
  let (state, random) := nextRandom state
  (state, random.toNat % count)

/-- The loop of `sample_mean`, `rounds` times. -/
def sampleTotal (samples : List Word) : ℕ → Word → Word → Word × Option Word
  | 0, state, total => (state, some total)
  | rounds + 1, state, total =>
    let (state, index) := drawIndex samples.length state
    let value := samples.getD index 0
    if value > maximumWord - total then (state, none)
    else sampleTotal samples rounds state (total + value)

def sampleMean (samples : List Word) (state : Word) : Word × Option Word :=
  if samples.length = 0 ∨ maximumSamples < samples.length then (state, none)
  else
    let (state, total) := sampleTotal samples samples.length state 0
    (state, total.map fun total => total / BitVec.ofNat 64 samples.length)

/-- The loop of `sample_max`, `rounds` times. -/
def sampleLargest (samples : List Word) : ℕ → Word → Word → Word × Word
  | 0, state, output => (state, output)
  | rounds + 1, state, output =>
    let (state, index) := drawIndex samples.length state
    let value := samples.getD index 0
    sampleLargest samples rounds state (if value > output then value else output)

def sampleMax (samples : List Word) (state : Word) : Word × Option Word :=
  if samples.length = 0 ∨ maximumSamples < samples.length then (state, none)
  else
    let (state, output) := sampleLargest samples samples.length state 0
    (state, some output)

/-- `std::numeric_limits<std::int64_t>::max()` -/
def unboundedRegressionPpm : ℤ := 9223372036854775807

/-- `std::numeric_limits<std::int64_t>::min()` -/
def unboundedImprovementPpm : ℤ := -9223372036854775808

/-- Adds to a remainder, and carries if it comes to the baseline. -/
def addBelow (baseline addend remainder carry : Word) : Word × Word :=
  if remainder ≥ baseline - addend then (remainder - (baseline - addend), carry + 1)
  else (remainder + addend, carry)

/-- One round of the long division: the next bit of a million, the remainder and the digit. -/
def divideBit (baseline fractionSource : Word) (bit : Bool) (remainder : Word) : Word × Word :=
  let (remainder, carry) := addBelow baseline remainder remainder 0
  if bit then addBelow baseline fractionSource remainder carry else (remainder, carry)

/-- The loop of `regression_ppm` over the bits that are left. -/
def divideBits (baseline fractionSource : Word) :
    List Bool → Word → Word → Option Word
  | [], _, fractional => some fractional
  | bit :: bits, remainder, fractional =>
    let (remainder, carry) := divideBit baseline fractionSource bit remainder
    if fractional > (maximumWord - carry) / 2 then none
    else divideBits baseline fractionSource bits remainder (fractional * 2 + carry)

/-- The bits of a million, from `1 << 19` down. -/
def millionBits : List Bool := (List.range 20).map fun k => Nat.testBit 1000000 (19 - k)

/-- `none` is `RegressionResult::arithmetic_overflow`. -/
def regressionPpm (baseline candidate : Word) (higherIsBetter : Bool) : Option ℤ :=
  if baseline = 0 then
    if candidate = 0 then some 0
    else some (if higherIsBetter then unboundedImprovementPpm else unboundedRegressionPpm)
  else
    let candidateIsRegression :=
      if higherIsBetter then decide (candidate < baseline) else decide (candidate > baseline)
    let difference := if candidate ≥ baseline then candidate - baseline else baseline - candidate
    let whole := difference / baseline
    let fractionSource := difference % baseline
    match divideBits baseline fractionSource millionBits 0 0 with
    | none => none
    | some fractional =>
      if whole > (BitVec.ofInt 64 unboundedRegressionPpm - fractional) / 1000000 then none
      else
        let magnitude := whole * 1000000 + fractional
        some (if candidateIsRegression then magnitude.toInt else -magnitude.toInt)

structure Interval where
  lower : ℤ := 0
  upper : ℤ := 0
  deriving DecidableEq

inductive BootstrapError
  | invalidSamples
  | zeroBaselineUndefined
  | arithmeticOverflow
  deriving DecidableEq

def usesMaximum (metric : MetricId) : Bool := metric = .peakRss

def hasNonzeroSample (series : MetricSeries) : Bool := series.values.any fun value => value ≠ 0

/-- A resample of a series, as its metric asks. -/
def drawSample (metric : MetricId) (series : MetricSeries) (state : Word) : Word × Option Word :=
  if usesMaximum metric then sampleMax series.values state else sampleMean series.values state

/-- The loop of `bootstrap_interval`, `iterations` times. -/
def bootstrapSamples (baseline candidate : MetricSeries) (metric : MetricId)
    (higherIsBetter : Bool) : ℕ → Word → Except BootstrapError (List ℤ)
  | 0, _ => .ok []
  | iterations + 1, state =>
    let (state, baselineMean) := drawSample metric baseline state
    let (state, candidateMean) := drawSample metric candidate state
    match baselineMean, candidateMean with
    | some baselineMean, some candidateMean =>
      match regressionPpm baselineMean candidateMean higherIsBetter with
      | none => .error .arithmeticOverflow
      | some sample => do
        let samples ← bootstrapSamples baseline candidate metric higherIsBetter iterations state
        .ok (sample :: samples)
    | _, _ => .error .invalidSamples

def lowerIndex : ℕ := (bootstrapResamples * 25 + 999) / 1000 - 1
def upperIndex : ℕ := (bootstrapResamples * 975 + 999) / 1000 - 1

def bootstrapInterval (baseline candidate : MetricSeries) (metric : MetricId)
    (higherIsBetter : Bool) : Except BootstrapError Interval :=
  if ¬ baseline.available ∨ ¬ candidate.available then .error .invalidSamples
  else if ¬ hasNonzeroSample baseline ∧ hasNonzeroSample candidate then
    .error .zeroBaselineUndefined
  else do
    let samples ← bootstrapSamples baseline candidate metric higherIsBetter bootstrapResamples
      fixedSeed
    let sorted := samples.mergeSort (· ≤ ·)
    .ok { lower := sorted.getD lowerIndex 0, upper := sorted.getD upperIndex 0 }

end Laghu.Evaluator
