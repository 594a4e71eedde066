import Laghu.EvaluatorStatistics

/-!
The evaluator as a program: its options, the comparison of two artifacts, the rules of a
manifest, and what it prints and returns. Files are what can be read from a path; the writes
to the standard output are answered by the system, and `none` is a program that still waits.
What is written to the standard error is kept whole, since no answer to it matters.
-/

namespace Laghu.BoundedWriters

open Option

variable {α β : Type}

abbrev Writer (α : Type) := List α → Option (List α)

def append (capacity : ℕ) (text : List α) : Writer α :=
  fun written => if written.length + text.length ≤ capacity then some (written ++ text) else none

/-- One writer after the other. -/
def sequence : List (Writer α) → Writer α
  | [] => some
  | writer :: rest => fun written => (writer written).bind (sequence rest)

/-- The writer of each element, one after the other. -/
def each (writer : β → Writer α) (xs : List β) : Writer α := sequence (xs.map writer)

/-- The writer that always fails. -/
def fail : Writer α := fun _ => none

theorem append_eq_some {capacity : ℕ} {written more result : List α} :
    append capacity more written = some result ↔
      written.length + more.length ≤ capacity ∧ result = written ++ more := by
  unfold append
  split
  · rename_i h
    exact ⟨fun heq => ⟨h, (some.inj heq).symm⟩, fun heq => congrArg some heq.2.symm⟩
  · rename_i h
    exact ⟨fun heq => (some_ne_none _ heq.symm).elim, fun heq => (h heq.1).elim⟩

/-- One writer that always fails makes the sequence fail. -/
theorem sequence_eq_none {writers : List (Writer α)} {writer : Writer α} (hmem : writer ∈ writers)
    (h : ∀ written, writer written = none) (written : List α) :
    sequence writers written = none := by
  induction writers generalizing written with
  | nil => cases hmem
  | cons first rest ih =>
    rcases List.mem_cons.mp hmem with rfl | hrest
    · exact congrArg (bind · (sequence rest)) (h written)
    · exact bind_eq_none_iff.mpr fun more _ => ih hrest more

end Laghu.BoundedWriters

namespace Laghu.Evaluator

open JsonTexts BoundedWriters
open BigEndian (Byte)

inductive ExitCode
  | success
  | hardRegression
  | invalidArguments
  | invalidInput
  | outputFailure
  deriving DecidableEq

/-- The number a process exits with. -/
def ExitCode.toNat : ExitCode → ℕ
  | .success => 0
  | .hardRegression => 1
  | .invalidArguments => 64
  | .invalidInput => 65
  | .outputFailure => 74

def equalConfiguration (baseline candidate : Artifact) : Except Text Unit :=
  if baseline.targetArchitecture ≠ candidate.targetArchitecture ∨
      baseline.targetOs ≠ candidate.targetOs then
    .error (ascii "target")
  else if baseline.compilerId ≠ candidate.compilerId ∨
      baseline.compilerVersion ≠ candidate.compilerVersion ∨
      baseline.standardLibraryId ≠ candidate.standardLibraryId ∨
      baseline.standardLibraryVersion ≠ candidate.standardLibraryVersion ∨
      baseline.profile ≠ candidate.profile ∨ baseline.hardening ≠ candidate.hardening ∨
      baseline.sanitizerProfile ≠ candidate.sanitizerProfile ∨
      baseline.features ≠ candidate.features ∨ baseline.dependencies ≠ candidate.dependencies then
    .error (ascii "build")
  else if ¬ baseline.cpuDescriptionAvailable ∨ ¬ candidate.cpuDescriptionAvailable then
    .error (ascii "hardware_identity_unavailable")
  else if baseline.cpuDescription ≠ candidate.cpuDescription then .error (ascii "hardware")
  else if baseline.workload ≠ candidate.workload ∨
      baseline.workloadChecksum ≠ candidate.workloadChecksum ∨
      baseline.parameters ≠ candidate.parameters then
    .error (ascii "workload")
  else .ok ()

def hashAppend (value : Word) (input : Text) : Word :=
  let value := input.foldl
    (fun value character => (value ^^^ character.setWidth 64) * 1099511628211#64) value
  (value ^^^ 0xff#64) * 1099511628211#64

def environmentHash (artifact : Artifact) : Word :=
  [artifact.targetOs, artifact.targetArchitecture, artifact.cpuDescription, artifact.compilerId,
    artifact.compilerVersion, artifact.standardLibraryId, artifact.standardLibraryVersion,
    artifact.profile, artifact.hardening, artifact.sanitizerProfile, artifact.features,
    artifact.dependencies].foldl hashAppend 1469598103934665603#64

def hexDigits : Text := ascii "0123456789abcdef"

/-- The sixteen digits of `hex_environment`. -/
def hexEnvironment (value : Word) : Text :=
  (List.range 16).map fun index =>
    hexDigits.getD ((value >>> ((15 - index) * 4)) &&& 0x0f#64).toNat 0

namespace JsonWriter

def append (text : Text) : Writer Byte := BoundedWriters.append maximumDocumentBytes text

def appendNumber (value : Word) : Writer Byte := append (decimal value.toNat)

def signedDecimal (value : ℤ) : Text :=
  if value < 0 then 0x2d#8 :: decimal value.natAbs else decimal value.natAbs

def appendSignedNumber (value : ℤ) : Writer Byte := append (signedDecimal value)

def appendCharacter (character : Byte) : Writer Byte :=
  if character = backslash then append [backslash, backslash]
  else if character = quote then append [backslash, quote]
  else if character < 0x20#8 then fail
  else append [character]

def appendString (value : Text) : Writer Byte :=
  sequence [append [quote], each appendCharacter value, append [quote]]

end JsonWriter

structure Options where
  baseline : Option Text := none
  candidate : Option Text := none
  manifest : Option Text := none
  environment : Option Text := none
  deriving DecidableEq

/-- The arguments in pairs, as the loop of `parse_options` takes them. -/
def parseArguments (options : Options) : List Text → Option Options
  | [] => some options
  | [_] => none
  | argument :: value :: rest =>
    if argument = ascii "--baseline" ∧ options.baseline = none then
      parseArguments { options with baseline := some value } rest
    else if argument = ascii "--candidate" ∧ options.candidate = none then
      parseArguments { options with candidate := some value } rest
    else if argument = ascii "--manifest" ∧ options.manifest = none then
      parseArguments { options with manifest := some value } rest
    else if argument = ascii "--environment" ∧ options.environment = none then
      parseArguments { options with environment := some value } rest
    else none

/-- What the options ask for. -/
inductive Request
  | environment (artifact : Text)
  | evaluation (baseline candidate manifest : Text)
  deriving DecidableEq

def parseOptions (arguments : List Text) : Option Request := do
  let options ← parseArguments {} arguments
  match options with
  | ⟨none, none, none, some environment⟩ => some (.environment environment)
  | ⟨some baseline, some candidate, some manifest, none⟩ =>
    some (.evaluation baseline candidate manifest)
  | _ => none

/-- The answers of `write`. -/
inductive WriteAnswer
  | written (count : ℕ)
  | interrupted
  | failed
  deriving DecidableEq

/-- What has been written of a text, whether it is all of it, and the answers that are left. -/
def writeAll (text : Text) : List WriteAnswer → Option (Text × Bool × List WriteAnswer)
  | [] => if text = [] then some ([], true, []) else none
  | answer :: answers =>
    if text = [] then some ([], true, answer :: answers)
    else
      match answer with
      | .interrupted => writeAll text answers
      | .failed => some ([], false, answers)
      | .written count =>
        if count = 0 then some ([], false, answers)
        else (writeAll (text.drop count) answers).map fun (rest, complete, left) =>
          (text.take count ++ rest, complete, left)

/-- What is known of an applicable rule when the result is printed. -/
structure Evaluation where
  rule : Rule
  interval : Interval
  regression : Bool
  deriving DecidableEq

/-- `allowed_regression_ppm + noise_band_ppm` -/
def Rule.threshold (rule : Rule) : Word := rule.allowedRegressionPpm + rule.noiseBandPpm

/-- Whether a rule is flagged. -/
def Rule.regression (rule : Rule) (interval : Interval) : Bool :=
  decide (interval.lower > 0) && decide (BitVec.ofInt 64 interval.lower > rule.threshold)

def Evaluation.hardFailure (evaluation : Evaluation) : Bool :=
  evaluation.rule.hard && evaluation.regression

def Evaluation.status (evaluation : Evaluation) : Text :=
  if evaluation.hardFailure then ascii "hard_regression"
  else if evaluation.regression then ascii "advisory_regression"
  else ascii "pass"

def bootstrapReason : BootstrapError → Text
  | .zeroBaselineUndefined => ascii "zero_baseline_undefined\n"
  | .arithmeticOverflow => ascii "arithmetic_overflow\n"
  | .invalidSamples => ascii "invalid_samples\n"

/-- The body of the loop over the rules, for a rule of the workload. -/
def evaluateRule (baseline candidate : Artifact) (rule : Rule) : Except Text Evaluation :=
  let referenceEnvironment := hexEnvironment (environmentHash baseline)
  if rule.referenceEnvironment ≠ referenceEnvironment then
    .error (ascii "laghu-benchmark-evaluate: manifest=reference_environment_mismatch; expected=" ++
      referenceEnvironment ++ ascii "\n")
  else
    match metricId rule.metric with
    -- no rule of a manifest has such a metric
    | none => .error []
    | some metric =>
      let about := ascii "laghu-benchmark-evaluate: metric=" ++ rule.metric ++ ascii "; reason="
      let baselineMetric := baseline.metrics metric
      let candidateMetric := candidate.metrics metric
      if ¬ baselineMetric.available ∨ ¬ candidateMetric.available then
        .error (about ++ if baselineMetric.available then ascii "candidate_unavailable\n"
          else ascii "baseline_unavailable\n")
      else
        match bootstrapInterval baselineMetric candidateMetric metric rule.higherIsBetter with
        | .error error => .error (about ++ bootstrapReason error)
        | .ok interval =>
          if rule.allowedRegressionPpm > maximumWord - rule.noiseBandPpm then
            .error (ascii "laghu-benchmark-evaluate: manifest=threshold_overflow\n")
          else
            .ok { rule := rule, interval := interval, regression := rule.regression interval }

def Rule.applicable (rule : Rule) (baseline : Artifact) : Bool := rule.workload = baseline.workload

def evaluateRules (baseline candidate : Artifact) (rules : List Rule) :
    Except Text (List Evaluation) :=
  (rules.filter fun rule => rule.applicable baseline).mapM (evaluateRule baseline candidate)

def anyHardFailure (evaluations : List Evaluation) : Bool :=
  evaluations.any Evaluation.hardFailure

section

open JsonWriter

def writeEvaluation (evaluation : Evaluation) : Writer Byte :=
  sequence
    [append (ascii "\x7b\"allowed_regression_ppm\":"),
      appendNumber evaluation.rule.allowedRegressionPpm,
      append (ascii ",\"mode\":"),
      appendString (if evaluation.rule.hard then ascii "hard" else ascii "advisory"),
      append (ascii ",\"metric\":"), appendString evaluation.rule.metric,
      append (ascii ",\"noise_band_ppm\":"), appendNumber evaluation.rule.noiseBandPpm,
      append (ascii ",\"regression_ppm_ci95\":\x7b\"lower\":"),
      appendSignedNumber evaluation.interval.lower,
      append (ascii ",\"upper\":"), appendSignedNumber evaluation.interval.upper,
      append (ascii "\x7d,\"status\":"), appendString evaluation.status,
      append (ascii ",\"threshold_ppm\":"), appendNumber evaluation.rule.threshold,
      append (ascii ",\"workload\":"), appendString evaluation.rule.workload,
      append (ascii "\x7d")]

def overallStatus (evaluations : List Evaluation) : Text :=
  if evaluations = [] then ascii "no_threshold"
  else if anyHardFailure evaluations then ascii "hard_regression"
  else ascii "pass"

/-- The applicable rules, with a comma before each but the first. -/
def writeEvaluations : List Evaluation → Writer Byte
  | [] => sequence []
  | first :: rest =>
    sequence [writeEvaluation first,
      each (fun evaluation => sequence [append [comma], writeEvaluation evaluation]) rest]

/-- The text of `write_result`. -/
def resultText (baseline : Artifact) (evaluations : List Evaluation) : Option Text :=
  sequence
    [append (ascii "\x7b\"reference_environment\":"),
      appendString (hexEnvironment (environmentHash baseline)),
      append (ascii ",\"unbounded_regression_ppm_sentinels\":\x7b\"improvement\":"),
      appendSignedNumber unboundedImprovementPpm,
      append (ascii ",\"regression\":"),
      appendSignedNumber unboundedRegressionPpm,
      append (ascii "\x7d"),
      append (ascii ",\"results\":["),
      writeEvaluations evaluations,
      append (ascii "],\"schema_version\":\"laghu-benchmark-evaluation-v1\",\"status\":"),
      appendString (overallStatus evaluations),
      append (ascii "\x7d\n")] []

end

structure Outcome where
  exitCode : ExitCode
  stdout : Text := []
  stderr : Text := []
  deriving DecidableEq

/-- What comes of a result text, or of one that does not fit. -/
def printResult (hardFailure : Bool) (answers : List WriteAnswer) : Option Text → Option Outcome
  | none => some { exitCode := .outputFailure }
  | some text => (writeAll text answers).map fun (printed, complete, _) =>
    { exitCode :=
        if complete = false then .outputFailure
        else if hardFailure then .hardRegression
        else .success
      stdout := printed }

/-- What an evaluation prints and returns, once it has its inputs. -/
def writeResult (baseline : Artifact) (evaluations : List Evaluation)
    (answers : List WriteAnswer) : Option Outcome :=
  printResult (anyHardFailure evaluations) answers (resultText baseline evaluations)

/-- An exit before anything is printed. -/
def rejected (exitCode : ExitCode) (stderr : Text) : Option Outcome :=
  some { exitCode := exitCode, stderr := stderr }

def usage : Text :=
  ascii "usage: laghu_benchmark_evaluate --baseline <artifact> --candidate <artifact>" ++
  ascii " --manifest <tsv>\n       laghu_benchmark_evaluate --environment <artifact>\n"

/-- `write_environment` writes the line in two pieces. -/
def writeEnvironment (artifact : Artifact) (answers : List WriteAnswer) : Option (Text × Bool) :=
  (writeAll (hexEnvironment (environmentHash artifact)) answers).bind
    fun (printed, complete, answers) =>
      if complete = false then some (printed, false)
      else (writeAll (ascii "\n") answers).map fun (rest, complete, _) =>
        (printed ++ rest, complete)

def mainEnvironment (file : Option Text) (answers : List WriteAnswer) : Option Outcome :=
  (loadArtifact file).bind fun loaded =>
    match loaded with
    | .error error => rejected .invalidInput
        (ascii "laghu-benchmark-evaluate: artifact=environment; field=" ++ error ++ ascii "\n")
    | .ok artifact =>
      if ¬ artifact.cpuDescriptionAvailable then
        rejected .invalidInput
          (ascii "laghu-benchmark-evaluate: environment=hardware_identity_unavailable\n")
      else
        (writeEnvironment artifact answers).map fun (printed, complete) =>
          { exitCode := if complete then .success else .outputFailure, stdout := printed }

def mainEvaluation (baseline candidate manifest : Option Text) (answers : List WriteAnswer) :
    Option Outcome :=
  (loadArtifact baseline).bind fun loaded =>
    match loaded with
    | .error error => rejected .invalidInput
        (ascii "laghu-benchmark-evaluate: artifact=baseline; field=" ++ error ++ ascii "\n")
    | .ok baseline =>
      (loadArtifact candidate).bind fun loaded =>
        match loaded with
        | .error error => rejected .invalidInput
            (ascii "laghu-benchmark-evaluate: artifact=candidate; field=" ++ error ++ ascii "\n")
        | .ok candidate =>
          match equalConfiguration baseline candidate with
          | .error error => rejected .invalidInput
              (ascii "laghu-benchmark-evaluate: compatibility=" ++ error ++ ascii "\n")
          | .ok () =>
            (parseManifest manifest).bind fun parsed =>
              match parsed with
              | .error error => rejected .invalidInput
                  (ascii "laghu-benchmark-evaluate: manifest=" ++ error ++ ascii "\n")
              | .ok rules =>
                match evaluateRules baseline candidate rules with
                | .error error => rejected .invalidInput error
                | .ok evaluations => writeResult baseline evaluations answers

def main (arguments : List Text) (files : Text → Option Text) (answers : List WriteAnswer) :
    Option Outcome :=
  match parseOptions arguments with
  | none => rejected .invalidArguments usage
  | some (.environment artifact) => mainEnvironment (files artifact) answers
  | some (.evaluation baseline candidate manifest) =>
    mainEvaluation (files baseline) (files candidate) (files manifest) answers

end Laghu.Evaluator
