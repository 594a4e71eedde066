import Laghu.EvaluatorDocuments

/-!
Benchmark artifacts: what the evaluator takes from a report. A view of the document's text is
its contents, so an artifact does not keep the document; a series is as long as its `count`.
-/

namespace Laghu.Evaluator

open JsonTexts

/-- `std::uint64_t` -/
abbrev Word := BitVec 64

def minimumSamples : ℕ := 10
def maximumSamples : ℕ := 1000

inductive MetricId
  | latency
  | throughput
  | cpuTime
  | peakRss
  | allocation
  | laghuSyscall
  deriving DecidableEq

/-- `none` is `MetricId::invalid`. -/
def metricId (name : Text) : Option MetricId :=
  if name = ascii "latency_ns_per_interval" then some .latency
  else if name = ascii "throughput_operations_per_second" then some .throughput
  else if name = ascii "cpu_time_ns" then some .cpuTime
  else if name = ascii "peak_rss_bytes" then some .peakRss
  else if name = ascii "allocation_count" then some .allocation
  else if name = ascii "laghu_syscall_count" then some .laghuSyscall
  else none

structure MetricSeries where
  values : List Word := []
  available : Bool := false
  reason : Text := []
  deriving DecidableEq

structure Artifact where
  buildId : Text := []
  compilerId : Text := []
  compilerVersion : Text := []
  standardLibraryId : Text := []
  standardLibraryVersion : Text := []
  profile : Text := []
  hardening : Text := []
  sanitizerProfile : Text := []
  targetArchitecture : Text := []
  targetOs : Text := []
  cpuDescription : Text := []
  cpuDescriptionAvailable : Bool := false
  dependencies : Text := []
  features : Text := []
  parameters : Text := []
  workload : Text := []
  workloadChecksum : Word := 0
  metrics : MetricId → MetricSeries := fun _ => {}

namespace JsonTables

variable (d : JsonTables)

/-- The node of a field, if it has the type. -/
def required (type : JsonType) (object : Option ℕ) (key : Text) : Option (ℕ × JsonNode) := do
  let index ← d.field object key
  let node ← d.nodes[index]?
  if node.type = type then some (index, node) else none

def requiredObject (object : Option ℕ) (key : Text) : Option (ℕ × JsonNode) :=
  d.required .object object key

def requiredArray (object : Option ℕ) (key : Text) : Option (ℕ × JsonNode) :=
  d.required .array object key

def requiredString (object : Option ℕ) (key : Text) : Option Text := do
  let (_, node) ← d.required .string object key
  if node.string = [] then none else some node.string

def requiredNumber (object : Option ℕ) (key : Text) : Option Word :=
  (d.required .number object key).map fun found => BitVec.ofNat 64 found.2.number

def requiredBoolean (object : Option ℕ) (key : Text) : Option Bool :=
  (d.required .boolean object key).map fun found => found.2.boolean

/-- The number at a place of an array. -/
def sample (samples : ℕ) (index : ℕ) : Option Word := do
  let element ← d.element (some samples) index
  let node ← d.nodes[element]?
  if node.type = .number then some (BitVec.ofNat 64 node.number) else none

def loadSamples (metric : ℕ) (key : Text) (intervals : Word) : Option MetricSeries := do
  let (samples, _) ← d.requiredArray (some metric) key
  let count := d.elementCount (some samples)
  if count < minimumSamples ∨ maximumSamples < count ∨ count ≠ intervals.toNat then none
  else
    let values ← (List.range count).mapM (d.sample samples)
    some { values := values, available := true }

def loadHostMetric (metrics : ℕ) (key samplesKey : Text) (intervals : Word) :
    Option MetricSeries := do
  let (metric, _) ← d.requiredObject (some metrics) key
  let status ← d.requiredString (some metric) (ascii "status")
  if status = ascii "unavailable" then
    let reason ← d.requiredString (some metric) (ascii "reason")
    some { reason := reason }
  else if status = ascii "available" then
    let _ ← d.requiredNumber (some metric) (ascii "value")
    d.loadSamples metric samplesKey intervals
  else none

def loadCounterMetric (metrics : ℕ) (key : Text) (intervals : Word) : Option MetricSeries := do
  let (metric, _) ← d.requiredObject (some metrics) key
  let instrumented ← d.requiredBoolean (some metric) (ascii "instrumented")
  let _ ← d.requiredNumber (some metric) (ascii "value")
  let status ← d.requiredString (some metric) (ascii "status")
  if instrumented = false then
    if status = ascii "unavailable" then
      let reason ← d.requiredString (some metric) (ascii "reason")
      some { reason := reason }
    else none
  else if status = ascii "available" then d.loadSamples metric (ascii "samples_count") intervals
  else none

def loadLatencyMetric (metrics : ℕ) (intervals : Word) : Option MetricSeries := do
  let (metric, _) ← d.requiredObject (some metrics) (ascii "latency_ns_per_interval")
  let _ ← d.requiredNumber (some metric) (ascii "p50")
  let _ ← d.requiredNumber (some metric) (ascii "p95")
  let _ ← d.requiredNumber (some metric) (ascii "p99")
  let _ ← d.requiredNumber (some metric) (ascii "p99_9")
  d.loadSamples metric (ascii "samples_ns") intervals

def loadSchema (root : ℕ) : Option Unit := do
  let schema ← d.requiredString (some root) (ascii "schema_version")
  if schema = ascii "laghu-benchmark-v1" then some () else none

def loadBuild (root : ℕ) (artifact : Artifact) : Option Artifact := do
  let (build, _) ← d.requiredObject (some root) (ascii "build")
  let buildId ← d.requiredString (some build) (ascii "build_id")
  let (compiler, _) ← d.requiredObject (some build) (ascii "compiler")
  let compilerId ← d.requiredString (some compiler) (ascii "id")
  let compilerVersion ← d.requiredString (some compiler) (ascii "version")
  let (standardLibrary, _) ← d.requiredObject (some build) (ascii "standard_library")
  let standardLibraryId ← d.requiredString (some standardLibrary) (ascii "id")
  let standardLibraryVersion ← d.requiredString (some standardLibrary) (ascii "version")
  let profile ← d.requiredString (some build) (ascii "profile")
  let (_, hardening) ← d.requiredObject (some build) (ascii "hardening")
  let sanitizerProfile ← d.requiredString (some build) (ascii "sanitizer_profile")
  let (target, _) ← d.requiredObject (some build) (ascii "target")
  let targetArchitecture ← d.requiredString (some target) (ascii "architecture")
  let targetOs ← d.requiredString (some target) (ascii "os")
  let (_, dependencies) ← d.requiredArray (some build) (ascii "dependencies")
  let (_, features) ← d.requiredArray (some build) (ascii "features")
  some { artifact with
    buildId := buildId
    compilerId := compilerId
    compilerVersion := compilerVersion
    standardLibraryId := standardLibraryId
    standardLibraryVersion := standardLibraryVersion
    profile := profile
    hardening := hardening.raw
    sanitizerProfile := sanitizerProfile
    targetArchitecture := targetArchitecture
    targetOs := targetOs
    dependencies := dependencies.raw
    features := features.raw }

def loadCpu (root : ℕ) (artifact : Artifact) : Option Artifact := do
  let (cpu, _) ← d.requiredObject (some root) (ascii "cpu")
  let (description, _) ← d.requiredObject (some cpu) (ascii "description")
  let status ← d.requiredString (some description) (ascii "status")
  if status = ascii "available" then
    let value ← d.requiredString (some description) (ascii "value")
    some { artifact with cpuDescription := value, cpuDescriptionAvailable := true }
  else if status = ascii "unavailable" then
    let _ ← d.requiredString (some description) (ascii "reason")
    some artifact
  else none

def loadParameters (root : ℕ) (artifact : Artifact) : Option (Word × Artifact) := do
  let (parameters, node) ← d.requiredObject (some root) (ascii "parameters")
  let intervals ← d.requiredNumber (some parameters) (ascii "intervals")
  if intervals.toNat < minimumSamples ∨ maximumSamples < intervals.toNat then none
  else
    let _ ← d.requiredNumber (some parameters) (ascii "operations_per_interval")
    let _ ← d.requiredNumber (some parameters) (ascii "warmup")
    let workload ← d.requiredString (some root) (ascii "workload")
    let workloadChecksum ← d.requiredNumber (some root) (ascii "workload_checksum")
    some (intervals, { artifact with
      workload := workload, workloadChecksum := workloadChecksum, parameters := node.raw })

def loadMetrics (root : ℕ) (intervals : Word) (artifact : Artifact) : Option Artifact := do
  let (metrics, _) ← d.requiredObject (some root) (ascii "metrics")
  let allocation ← d.loadCounterMetric metrics (ascii "allocation_count") intervals
  let cpuTime ← d.loadHostMetric metrics (ascii "cpu_time_ns") (ascii "samples_ns") intervals
  let laghuSyscall ← d.loadCounterMetric metrics (ascii "laghu_syscall_count") intervals
  let latency ← d.loadLatencyMetric metrics intervals
  let peakRss ← d.loadHostMetric metrics (ascii "peak_rss_bytes") (ascii "samples_bytes") intervals
  let throughput ← d.loadHostMetric metrics (ascii "throughput_operations_per_second")
    (ascii "samples_operations_per_second") intervals
  some { artifact with
    metrics := fun
      | .latency => latency
      | .throughput => throughput
      | .cpuTime => cpuTime
      | .peakRss => peakRss
      | .allocation => allocation
      | .laghuSyscall => laghuSyscall }

end JsonTables

/-- The value, or the name of what is wrong. -/
def orError {α : Type} (error : Text) : Option α → Except Text α
  | none => .error error
  | some a => .ok a

/-- `load_artifact`, once the document is loaded. -/
def JsonDocument.artifact (d : JsonDocument) : Except Text Artifact := do
  let root ← orError (ascii "root") (do
    let root ← d.tables.node d.root
    let node ← d.tables.nodes[root]?
    if node.type = .object then some root else none)
  orError (ascii "schema_version") (d.tables.loadSchema root)
  let artifact ← orError (ascii "build") (d.tables.loadBuild root {})
  let artifact ← orError (ascii "cpu_description") (d.tables.loadCpu root artifact)
  let (intervals, artifact) ← orError (ascii "parameters") (d.tables.loadParameters root artifact)
  orError (ascii "metrics") (d.tables.loadMetrics root intervals artifact)

/-- `none` is a document that is not loaded to an end. -/
def loadArtifact (file : Option Text) : Option (Except Text Artifact) :=
  (JsonDocument.load file).map fun loaded =>
    match loaded with
    | .error () => .error (ascii "document")
    | .ok d => d.artifact

end Laghu.Evaluator
