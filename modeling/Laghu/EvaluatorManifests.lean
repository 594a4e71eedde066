import Laghu.EvaluatorArtifacts

/-!
Threshold manifests: lines of seven fields, in the order of their workloads and metrics. A
line that is empty or begins with `#` is passed over, so it makes no difference whether the
text ends with a newline.
-/

namespace Laghu.Evaluator

open JsonTexts
open BigEndian (Byte)

def maximumRules : ℕ := 128
def percentPpm : Word := 10000#64

/-- `std::numeric_limits<std::uint64_t>::max()` -/
def maximumWord : Word := BitVec.allOnes 64

structure Rule where
  workload : Text := []
  metric : Text := []
  higherIsBetter : Bool := false
  allowedRegressionPpm : Word := 0
  noiseBandPpm : Word := 0
  referenceEnvironment : Text := []
  hard : Bool := false
  deriving DecidableEq

def digitValue (character : Byte) : Word := BitVec.ofNat 64 (character.toNat - 0x30)

/-- The digits in front, and what is behind them. -/
def parseWhole (whole : Word) : Text → Option (Word × Text)
  | [] => some (whole, [])
  | character :: rest =>
    if isDigit character then
      if whole > (maximumWord - 9) / 10 then none
      else parseWhole (whole * 10 + digitValue character) rest
    else some (whole, character :: rest)

/-- At most `digits` more digits, and how many are then left. -/
def parseFraction (fraction : Word) : ℕ → Text → Word × ℕ × Text
  | 0, rest => (fraction, 0, rest)
  | digits + 1, [] => (fraction, digits + 1, [])
  | digits + 1, character :: rest =>
    if isDigit character then parseFraction (fraction * 10 + digitValue character) digits rest
    else (fraction, digits + 1, character :: rest)

def scaleFraction (fraction : Word) : ℕ → Word
  | 0 => fraction
  | digits + 1 => scaleFraction (fraction * 10) digits

/-- The point and the digits behind it, and how many of four digits are missing. -/
def parsePoint : Text → Option (Word × ℕ)
  | [] => some (0, 4)
  | point :: digits =>
    if point ≠ 0x2e#8 then none
    else
      let (fraction, missing, rest) := parseFraction 0 4 digits
      if missing = 4 ∨ rest ≠ [] then none else some (fraction, missing)

def parsePercentPpm (input : Text) : Option Word := do
  let (whole, rest) ← parseWhole 0 input
  if rest.length = input.length then none
  else
    let (fraction, missing) ← parsePoint rest
    let fraction := scaleFraction fraction missing
    if whole > (maximumWord - fraction) / percentPpm then none
    else some (whole * percentPpm + fraction)

def compareRuleKey (left right : Rule) : Ordering :=
  if left.workload < right.workload then .lt
  else if right.workload < left.workload then .gt
  else if left.metric < right.metric then .lt
  else if right.metric < left.metric then .gt
  else .eq

def isEnvironmentDigit (character : Byte) : Bool :=
  isDigit character || (0x61#8 ≤ character && character ≤ 0x66#8)

def parseDirection (field : Text) : Option Bool :=
  if field = ascii "lower" then some false
  else if field = ascii "higher" then some true
  else none

def parseMode (field : Text) : Option Bool :=
  if field = ascii "hard" then some true
  else if field = ascii "advisory" then some false
  else none

/-- A line whose fields are split already: there must be seven of them. -/
def parseFields (fields : List Text) : Except Text Rule :=
  match fields with
  | [workload, metric, direction, allowed, noise, environment, mode] => do
    let (allowed, noise) ← orError (ascii "field_value") (do
      if workload = [] ∨ metric = [] then none
      else
        let allowed ← parsePercentPpm allowed
        let noise ← parsePercentPpm noise
        some (allowed, noise))
    let _ ← orError (ascii "metric") (metricId metric)
    let higherIsBetter ← orError (ascii "direction") (parseDirection direction)
    if environment.length ≠ 16 ∨ ¬ environment.all isEnvironmentDigit then
      .error (ascii "reference_environment")
    else
      let hard ← orError (ascii "mode") (parseMode mode)
      .ok
        { workload := workload
          metric := metric
          higherIsBetter := higherIsBetter
          allowedRegressionPpm := allowed
          noiseBandPpm := noise
          referenceEnvironment := environment
          hard := hard }
  | _ => .error (ascii "field_count")

/-- The positions from `first` on, before `last`. -/
def slice (text : Text) (first last : ℕ) : Text := (text.take last).drop first

/-- The loop over a line: a field ends at a tab, and the last one at the end of the line. No
more than seven are taken. -/
def splitFields (line : Text) : ℕ → ℕ → ℕ → List Text → Option (List Text)
  | 0, _, _, fields => some fields
  | steps + 1, index, fieldBegin, fields =>
    if index = line.length ∨ (line)[index]? = some 0x09#8 then
      if fields.length ≥ 7 then none
      else
        splitFields line steps (index + 1) (index + 1) (fields ++ [slice line fieldBegin index])
    else splitFields line steps (index + 1) fieldBegin fields

/-- A line without the carriage return before its end. -/
def trimLine (line : Text) : Text :=
  if line.getLast? = some 0x0d#8 then line.dropLast else line

/-- The rules so far, and those of a line. -/
def parseLine (rules : List Rule) (line : Text) : Except Text (List Rule) :=
  let line := trimLine line
  if line = [] ∨ line.head? = some 0x23#8 then .ok rules
  else if rules.length = maximumRules then .error (ascii "too_many_rules")
  else do
    let fields ← orError (ascii "field_count") (splitFields line (line.length + 1) 0 0 [])
    let rule ← parseFields fields
    match rules.getLast? with
    | none => .ok [rule]
    | some last =>
      if compareRuleKey last rule = .lt then .ok (rules ++ [rule])
      else .error (ascii "ordering_or_duplicate")

/-- The position of the next newline, or the end of the storage. -/
def lineEnd (storage : Text) : ℕ → ℕ → ℕ
  | 0, position => position
  | steps + 1, position =>
    if position < storage.length ∧ storage[position]? ≠ some 0x0a#8 then
      lineEnd storage steps (position + 1)
    else position

/-- The loop over the lines from `start` on; `none` is a loop that does not come to an end. -/
def parseLines (storage : Text) : ℕ → ℕ → List Rule → Option (Except Text (List Rule))
  | 0, _, _ => none
  | steps + 1, start, rules =>
    if start < storage.length then
      let position := lineEnd storage (storage.length - start) start
      match parseLine rules (slice storage start position) with
      | .error error => some (.error error)
      | .ok rules =>
        parseLines storage steps
          (if position < storage.length then position + 1 else storage.length) rules
    else some (.ok rules)

def parseManifest (file : Option Text) : Option (Except Text (List Rule)) :=
  match readFile file with
  | none => some (.error (ascii "document"))
  | some storage => parseLines storage (storage.length + 1) 0 []

end Laghu.Evaluator
