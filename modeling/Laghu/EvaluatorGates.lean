import Laghu.EvaluatorLookups
import Laghu.EvaluatorManifestLines
import Laghu.EvaluatorResampling
import Mathlib.Data.List.Permutation

/-!
The regression gate: what the evaluator prints last and exits with. The result ends with its
overall status and a newline, which nothing before it has, so a result that was written in part
is not mistaken for one. A run exits with 1 when it prints a hard regression, and it does so
when a hard rule of the workload is flagged and the result fits and is written whole.
-/

namespace Laghu.Evaluator

open JsonTexts BoundedWriters List Option
open BigEndian (Byte)

/-- The writer appends no newline. -/
def OneLine (writer : Writer Byte) : Prop :=
  ∀ written result, writer written = some result →
    ∃ text, result = written ++ text ∧ 0x0a#8 ∉ text

section

open JsonWriter

variable {text result written value : Text}

theorem oneLine_append (h : 0x0a#8 ∉ text) : OneLine (JsonWriter.append text) := by
  intro written result hres
  exact ⟨text, (append_eq_some.mp hres).2, h⟩

theorem oneLine_sequence {writers : List (Writer Byte)} (h : ∀ writer ∈ writers, OneLine writer) :
    OneLine (sequence writers) := by
  induction writers with
  | nil =>
    intro written result hres
    cases hres
    exact ⟨[], (append_nil _).symm, not_mem_nil⟩
  | cons writer rest ih =>
    intro written result hres
    obtain ⟨hwriter, hr⟩ := forall_mem_cons.mp h
    obtain ⟨middle, hmiddle, hres⟩ := bind_eq_some_iff.mp hres
    obtain ⟨first, rfl, hf⟩ := hwriter written middle hmiddle
    obtain ⟨second, rfl, hsec⟩ := ih hr _ result hres
    refine ⟨first ++ second, append_assoc _ _ _, ?_⟩
    rw [mem_append, not_or]
    exact ⟨hf, hsec⟩

theorem oneLine_each {β : Type} {writer : β → Writer Byte} (h : ∀ x, OneLine (writer x))
    (xs : List β) : OneLine (each writer xs) := by
  apply oneLine_sequence
  intro w hw
  obtain ⟨x, _, rfl⟩ := mem_map.mp hw
  exact h x

theorem oneLine_appendCharacter (character : Byte) : OneLine (appendCharacter character) := by
  unfold appendCharacter
  split
  · exact oneLine_append (by decide)
  split
  · exact oneLine_append (by decide)
  split
  · intro written result hres
    cases hres
  rename_i hchar
  refine oneLine_append ?_
  rw [mem_singleton]
  rintro rfl
  exact hchar (by decide)

theorem oneLine_appendString (value : Text) : OneLine (appendString value) := by
  apply oneLine_sequence
  intro writer hwriter
  simp only [mem_cons, not_mem_nil, or_false] at hwriter
  rcases hwriter with rfl | rfl | rfl
  · exact oneLine_append (by decide)
  · exact oneLine_each oneLine_appendCharacter value
  · exact oneLine_append (by decide)

theorem oneLine_appendNumber (value : Word) : OneLine (appendNumber value) := by
  refine oneLine_append fun h => ?_
  have := decimal_numerals _ _ h
  revert this
  decide

theorem oneLine_appendSignedNumber (value : ℤ) : OneLine (appendSignedNumber value) := by
  have hdig : 0x0a#8 ∉ decimal value.natAbs := fun h => by
    have := decimal_numerals _ _ h
    revert this
    decide
  refine oneLine_append ?_
  unfold signedDecimal
  split
  · rw [mem_cons, not_or]
    exact ⟨by decide, hdig⟩
  · exact hdig

theorem oneLine_writeEvaluation (evaluation : Evaluation) :
    OneLine (writeEvaluation evaluation) := by
  apply oneLine_sequence
  simp only [forall_mem_cons, not_mem_nil, false_implies, implies_true, and_true]
  exact ⟨oneLine_append (by decide), oneLine_appendNumber _, oneLine_append (by decide),
    oneLine_appendString _, oneLine_append (by decide), oneLine_appendString _,
    oneLine_append (by decide), oneLine_appendNumber _, oneLine_append (by decide),
    oneLine_appendSignedNumber _, oneLine_append (by decide), oneLine_appendSignedNumber _,
    oneLine_append (by decide), oneLine_appendString _, oneLine_append (by decide),
    oneLine_appendNumber _, oneLine_append (by decide), oneLine_appendString _,
    oneLine_append (by decide)⟩

theorem oneLine_writeEvaluations (evaluations : List Evaluation) :
    OneLine (writeEvaluations evaluations) := by
  cases evaluations with
  | nil => exact oneLine_sequence (forall_mem_nil _)
  | cons first rest =>
    apply oneLine_sequence
    simp only [forall_mem_cons, not_mem_nil, false_implies, implies_true, and_true]
    refine ⟨oneLine_writeEvaluation first, oneLine_each (fun evaluation => ?_) rest⟩
    apply oneLine_sequence
    simp only [forall_mem_cons, not_mem_nil, false_implies, implies_true, and_true]
    exact ⟨oneLine_append (by decide), oneLine_writeEvaluation evaluation⟩

/-- A text without quotes, backslashes and control characters is written as it is. -/
theorem each_appendCharacter (hv : ∀ character ∈ value, isPlain character = true)
    (h : each appendCharacter value written = some result) : result = written ++ value := by
  induction value generalizing written with
  | nil =>
    cases h
    exact (append_nil _).symm
  | cons character rest ih =>
    obtain ⟨hplain, hr⟩ := forall_mem_cons.mp hv
    obtain ⟨⟨hcontrol, hquote⟩, hbackslash⟩ := by simpa [isPlain] using hplain
    obtain ⟨middle, hmiddle, h⟩ := bind_eq_some_iff.mp h
    unfold appendCharacter at hmiddle
    rw [if_neg hbackslash, if_neg hquote, if_neg (BitVec.not_lt.mpr hcontrol)] at hmiddle
    obtain ⟨_, rfl⟩ := append_eq_some.mp hmiddle
    rw [ih hr h, append_assoc]
    rfl

theorem appendString_plain (hv : ∀ character ∈ value, isPlain character = true)
    (h : appendString value written = some result) :
    result = written ++ (quote :: value ++ [quote]) := by
  obtain ⟨opened, hopened, h⟩ := bind_eq_some_iff.mp h
  obtain ⟨inside, hin, h⟩ := bind_eq_some_iff.mp h
  obtain ⟨closed, hclosed, h⟩ := bind_eq_some_iff.mp h
  cases h
  rw [(append_eq_some.mp hclosed).2, each_appendCharacter hv hin, (append_eq_some.mp hopened).2]
  simp

theorem overallStatus_plain (evaluations : List Evaluation) :
    ∀ character ∈ overallStatus evaluations, isPlain character = true := by
  unfold overallStatus
  split
  · decide
  · split <;> decide

/-- The line of a result that ends with a status, without its newline. -/
def statusLine (status : Text) : Text :=
  ascii "],\"schema_version\":\"laghu-benchmark-evaluation-v1\",\"status\":" ++
    (quote :: status ++ [quote]) ++ ascii "\x7d"

/-- The output is a result with an overall status. -/
def Prints (stdout status : Text) : Prop := statusLine status ++ ascii "\n" <:+ stdout

theorem sequence_append (first second : List (Writer Byte)) (written : Text) :
    sequence (first ++ second) written = (sequence first written).bind (sequence second) := by
  induction first generalizing written with
  | nil => rfl
  | cons writer rest ih =>
    change (writer written).bind (sequence (rest ++ second)) =
      ((writer written).bind (sequence rest)).bind (sequence second)
    cases writer written with
    | none => rfl
    | some middle => exact ih middle

theorem statusLine_oneLine {status : Text} (h : 0x0a#8 ∉ status) : 0x0a#8 ∉ statusLine status := by
  unfold statusLine
  simp only [mem_append, mem_cons, not_or]
  exact ⟨⟨by decide, ⟨by decide, h⟩, by decide⟩, by decide⟩

/-- What `write_result` writes before the end of its results. -/
def resultHead (baseline : Artifact) (evaluations : List Evaluation) : List (Writer Byte) :=
  [JsonWriter.append (ascii "\x7b\"reference_environment\":"),
    appendString (hexEnvironment (environmentHash baseline)),
    JsonWriter.append (ascii ",\"unbounded_regression_ppm_sentinels\":\x7b\"improvement\":"),
    appendSignedNumber unboundedImprovementPpm,
    JsonWriter.append (ascii ",\"regression\":"),
    appendSignedNumber unboundedRegressionPpm,
    JsonWriter.append (ascii "\x7d"),
    JsonWriter.append (ascii ",\"results\":["),
    writeEvaluations evaluations]

theorem oneLine_resultHead (baseline : Artifact) (evaluations : List Evaluation) :
    OneLine (sequence (resultHead baseline evaluations)) := by
  apply oneLine_sequence
  unfold resultHead
  simp only [forall_mem_cons, not_mem_nil, false_implies, implies_true, and_true]
  exact ⟨oneLine_append (by decide), oneLine_appendString _, oneLine_append (by decide),
    oneLine_appendSignedNumber _, oneLine_append (by decide), oneLine_appendSignedNumber _,
    oneLine_append (by decide), oneLine_append (by decide), oneLine_writeEvaluations _⟩

/-- A result is one line, and says the overall status at its end. -/
theorem resultText_eq {baseline : Artifact} {evaluations : List Evaluation}
    (h : resultText baseline evaluations = some text) :
    ∃ body, text = body ++ statusLine (overallStatus evaluations) ++ ascii "\n" ∧
      0x0a#8 ∉ body ++ statusLine (overallStatus evaluations) := by
  have hparts : resultText baseline evaluations = sequence (resultHead baseline evaluations ++
      [JsonWriter.append
          (ascii "],\"schema_version\":\"laghu-benchmark-evaluation-v1\",\"status\":"),
        appendString (overallStatus evaluations), JsonWriter.append (ascii "\x7d\n")]) [] := rfl
  rw [hparts, sequence_append] at h
  obtain ⟨head, hhead, h⟩ := bind_eq_some_iff.mp h
  obtain ⟨schema, hschema, h⟩ := bind_eq_some_iff.mp h
  obtain ⟨status, hstatus, h⟩ := bind_eq_some_iff.mp h
  obtain ⟨ending, hending, h⟩ := bind_eq_some_iff.mp h
  cases h
  obtain ⟨body, hbody, hline⟩ := oneLine_resultHead baseline evaluations [] head hhead
  rw [nil_append] at hbody
  subst hbody
  refine ⟨head, ?_, ?_⟩
  · rw [(append_eq_some.mp hending).2, appendString_plain (overallStatus_plain evaluations) hstatus,
      (append_eq_some.mp hschema).2]
    unfold statusLine
    rw [show ascii "\x7d\n" = ascii "\x7d" ++ ascii "\n" from rfl]
    simp
  · rw [mem_append, not_or]
    refine ⟨hline, statusLine_oneLine fun hmem => ?_⟩
    exact absurd (overallStatus_plain evaluations _ hmem) (by decide)

end

variable {complete : Bool} {printed : Text}

/-- What has been written is all of a text, or something of it is left. -/
theorem writeAll_printed {text : Text} {answers left : List WriteAnswer}
    (h : writeAll text answers = some (printed, complete, left)) :
    ∃ rest, printed ++ rest = text ∧ (complete = true ↔ rest = []) := by
  induction answers generalizing text printed complete left with
  | nil =>
    rw [writeAll] at h
    split at h
    · rename_i ht
      cases h
      exact ⟨[], ht.symm, by simp⟩
    · cases h
  | cons answer answers ih =>
    unfold writeAll at h
    split at h
    · rename_i ht
      cases h
      exact ⟨[], ht.symm, by simp⟩
    rename_i ht
    cases answer with
    | interrupted => exact ih h
    | failed =>
      cases h
      exact ⟨text, rfl, by simpa using ht⟩
    | written count =>
      change (if count = 0 then some ([], false, answers)
        else (writeAll (text.drop count) answers).map fun r =>
          (text.take count ++ r.1, r.2.1, r.2.2)) = _ at h
      split at h
      · cases h
        exact ⟨text, rfl, by simpa using ht⟩
      obtain ⟨⟨rest, _, _⟩, hr, hprinted⟩ := map_eq_some_iff.mp h
      cases hprinted
      obtain ⟨missing, hmissing, hcmpl⟩ := ih hr
      refine ⟨missing, ?_, hcmpl⟩
      rw [append_assoc, hmissing, take_append_drop]

theorem newline_mem_of_prints {stdout status : Text} (h : Prints stdout status) : 0x0a#8 ∈ stdout :=
  h.subset (mem_append_right _ (by decide))

/-- A part of a result prints no status. -/
theorem not_prints_of_part {line rest status : Text} (hline : 0x0a#8 ∉ line)
    (hparts : printed ++ rest = line ++ ascii "\n") (hr : rest ≠ []) : ¬ Prints printed status := by
  intro h
  obtain ⟨front, last, rfl⟩ := eq_nil_or_concat rest |>.resolve_left hr
  rw [concat_eq_append, ← append_assoc] at hparts
  have hfront := (append_inj' hparts rfl).1
  exact hline (hfront ▸ mem_append_left _ (newline_mem_of_prints h))

theorem length_statusLine (status : Text) : 17 < (statusLine status).length := by
  unfold statusLine
  rw [append_assoc, length_append]
  have : 17 <
      (ascii "],\"schema_version\":\"laghu-benchmark-evaluation-v1\",\"status\":").length := by
    decide
  omega

/-- A short output prints no status. -/
theorem not_prints_of_short {stdout status : Text} (h : stdout.length ≤ 17) :
    ¬ Prints stdout status := by
  intro hprints
  have hlen := hprints.length_le
  have hline := length_statusLine status
  rw [length_append] at hlen
  omega

/-- Some hard rule of the workload has a lower bound beyond what it allows. -/
def HardRegression (baseline candidate : Artifact) (rules : List Rule) : Prop :=
  ∃ rule ∈ rules, rule.workload = baseline.workload ∧ rule.hard = true ∧
    ∃ metric interval, metricId rule.metric = some metric ∧
      bootstrapInterval (baseline.metrics metric) (candidate.metrics metric) metric
        rule.higherIsBetter = .ok interval ∧
      (rule.allowedRegressionPpm.toNat + rule.noiseBandPpm.toNat : ℤ) < interval.lower

variable {baseline candidate : Artifact} {evaluation : Evaluation} {rules : List Rule}

theorem evaluateRule_ok {rule : Rule}
    (h : evaluateRule baseline candidate rule = .ok evaluation) :
    ∃ metric interval, metricId rule.metric = some metric ∧
      bootstrapInterval (baseline.metrics metric) (candidate.metrics metric) metric
        rule.higherIsBetter = .ok interval ∧
      rule.allowedRegressionPpm.toNat + rule.noiseBandPpm.toNat < 2 ^ 64 ∧
      evaluation = ⟨rule, interval, rule.regression interval⟩ := by
  unfold evaluateRule at h
  dsimp only at h
  split at h
  · cases h
  split at h
  · cases h
  rename_i metric hmetric
  split at h
  · cases h
  split at h
  · cases h
  rename_i interval hintv
  split at h
  · cases h
  rename_i hthreshold
  cases h
  refine ⟨metric, interval, hmetric, hintv, ?_, rfl⟩
  rw [show maximumWord = 18446744073709551615#64 from rfl] at hthreshold
  bv_omega

/-- Whether an evaluation fails is whether its rule is hard and has such a bound. -/
theorem hardFailure_iff {rule : Rule}
    (h : evaluateRule baseline candidate rule = .ok evaluation) :
    evaluation.hardFailure = true ↔ rule.hard = true ∧
      ∃ metric interval, metricId rule.metric = some metric ∧
        bootstrapInterval (baseline.metrics metric) (candidate.metrics metric) metric
          rule.higherIsBetter = .ok interval ∧
        (rule.allowedRegressionPpm.toNat + rule.noiseBandPpm.toNat : ℤ) < interval.lower := by
  obtain ⟨metric, interval, hmetric, hintv, hthreshold, rfl⟩ := evaluateRule_ok h
  have hflag := rule.regression_iff hthreshold (lower_le_unbounded hintv)
  change (rule.hard && rule.regression interval) = true ↔ _
  rw [Bool.and_eq_true, hflag]
  constructor
  · rintro ⟨hhard, hlower⟩
    exact ⟨hhard, metric, interval, hmetric, hintv, hlower⟩
  rintro ⟨hhard, metric', interval', hmetric', hintv', hlower⟩
  rw [hmetric] at hmetric'
  cases hmetric'
  rw [hintv] at hintv'
  cases hintv'
  exact ⟨hhard, hlower⟩

theorem mapM_ok {α β : Type} {f : α → Except Text β} {xs : List α} {ys : List β}
    (h : xs.mapM f = .ok ys) : Forall₂ (fun x y => f x = .ok y) xs ys := by
  induction xs generalizing ys with
  | nil =>
    cases h
    exact .nil
  | cons x xs ih =>
    rw [mapM_cons] at h
    obtain ⟨y, hy, h⟩ := Contract.bind_eq_ok.mp h
    obtain ⟨rest, hr, h⟩ := Contract.bind_eq_ok.mp h
    cases h
    exact .cons hy (ih hr)

theorem any_iff_of_forall₂ {α β : Type} {r : α → β → Prop} {p : α → Prop} {f : β → Bool}
    {xs : List α} {ys : List β} (h : Forall₂ r xs ys)
    (hiff : ∀ x y, r x y → (f y = true ↔ p x)) : ys.any f = true ↔ ∃ x ∈ xs, p x := by
  induction h with
  | nil => simp
  | cons hxy _ ih => rw [any_cons, Bool.or_eq_true, hiff _ _ hxy, ih, exists_mem_cons_iff]

theorem anyHardFailure_iff {rules : List Rule} {evaluations : List Evaluation}
    (h : evaluateRules baseline candidate rules = .ok evaluations) :
    anyHardFailure evaluations = true ↔ HardRegression baseline candidate rules := by
  rw [anyHardFailure, any_iff_of_forall₂ (mapM_ok h) fun _ _ hrule => hardFailure_iff hrule]
  constructor
  · rintro ⟨rule, hrule, hhard⟩
    obtain ⟨hmem, hworkload⟩ := mem_filter.mp hrule
    exact ⟨rule, hmem, of_decide_eq_true hworkload, hhard⟩
  · rintro ⟨rule, hmem, hworkload, hhard⟩
    exact ⟨rule, mem_filter.mpr ⟨hmem, decide_eq_true hworkload⟩, hhard⟩

/-- The inputs of an evaluation, and what comes of its rules. -/
structure Evaluated (arguments : List Text) (files : Text → Option Text)
    (baseline candidate : Artifact) (rules : List Rule) (evaluations : List Evaluation) :
    Prop where
  inputs : ∃ baselinePath candidatePath manifestPath,
    parseOptions arguments = some (.evaluation baselinePath candidatePath manifestPath) ∧
    loadArtifact (files baselinePath) = some (.ok baseline) ∧
    loadArtifact (files candidatePath) = some (.ok candidate) ∧
    parseManifest (files manifestPath) = some (.ok rules)
  compatible : equalConfiguration baseline candidate = .ok ()
  evaluations : evaluateRules baseline candidate rules = .ok evaluations

section

variable {arguments : List Text} {files : Text → Option Text} {answers : List WriteAnswer}
  {outcome : Outcome}

theorem main_of_evaluated {baseline candidate : Artifact}
    {evaluations : List Evaluation}
    (h : Evaluated arguments files baseline candidate rules evaluations) :
    main arguments files answers = writeResult baseline evaluations answers := by
  obtain ⟨baselinePath, candidatePath, manifestPath, hoptions, hbase, hcand, hmanifest⟩ :=
    h.inputs
  unfold main
  rw [hoptions]
  unfold mainEvaluation
  simp only [hbase, bind_some, hcand, h.compatible, hmanifest, h.evaluations]

theorem rejected_short {exitCode : ExitCode} {stderr : Text} (hcode : exitCode ≠ .hardRegression)
    (h : rejected exitCode stderr = some outcome) :
    outcome.exitCode ≠ .hardRegression ∧ outcome.stdout.length ≤ 17 := by
  cases h
  exact ⟨hcode, Nat.zero_le _⟩

theorem writeAll_length {text : Text} {left : List WriteAnswer}
    (h : writeAll text answers = some (printed, complete, left)) :
    printed.length ≤ text.length := by
  obtain ⟨rest, hparts, _⟩ := writeAll_printed h
  rw [← hparts, length_append]
  omega

theorem writeEnvironment_length {artifact : Artifact}
    (h : writeEnvironment artifact answers = some (printed, complete)) : printed.length ≤ 17 := by
  have hlen : (hexEnvironment (environmentHash artifact)).length = 16 := by
    unfold hexEnvironment
    rw [length_map, length_range]
  obtain ⟨⟨first, firstComplete, rest⟩, hf, h⟩ := bind_eq_some_iff.mp h
  have hsixteen := writeAll_length hf
  rw [hlen] at hsixteen
  dsimp only at h
  split at h
  · cases h
    omega
  obtain ⟨⟨second, secondComplete, left⟩, hsec, h⟩ := map_eq_some_iff.mp h
  cases h
  have hone := writeAll_length hsec
  change second.length ≤ 1 at hone
  change (first ++ second).length ≤ 17
  rw [length_append]
  omega

theorem mainEnvironment_short {file : Option Text}
    (h : mainEnvironment file answers = some outcome) :
    outcome.exitCode ≠ .hardRegression ∧ outcome.stdout.length ≤ 17 := by
  obtain ⟨loaded, _, h⟩ := bind_eq_some_iff.mp h
  cases loaded with
  | error error => exact rejected_short (by decide) h
  | ok artifact =>
    dsimp only at h
    split at h
    · exact rejected_short (by decide) h
    obtain ⟨⟨printed, complete⟩, hwrite, h⟩ := map_eq_some_iff.mp h
    cases h
    refine ⟨?_, writeEnvironment_length hwrite⟩
    cases complete with
    | false | true => exact ExitCode.noConfusion

/-- A run is an evaluation that comes to its result, or it prints little. -/
theorem main_cases (h : main arguments files answers = some outcome) :
    (outcome.exitCode ≠ .hardRegression ∧ outcome.stdout.length ≤ 17) ∨
      ∃ baseline candidate rules evaluations,
        Evaluated arguments files baseline candidate rules evaluations := by
  unfold main at h
  split at h
  · exact .inl (rejected_short (by decide) h)
  · exact .inl (mainEnvironment_short h)
  rename_i baselinePath candidatePath manifestPath hoptions
  obtain ⟨loaded, hbase, h⟩ := bind_eq_some_iff.mp h
  cases loaded with
  | error error => exact .inl (rejected_short (by decide) h)
  | ok baseline =>
    obtain ⟨loaded, hcand, h⟩ := bind_eq_some_iff.mp h
    cases loaded with
    | error error => exact .inl (rejected_short (by decide) h)
    | ok candidate =>
      dsimp only at h
      split at h
      · exact .inl (rejected_short (by decide) h)
      rename_i hcompatible
      obtain ⟨parsed, hmanifest, h⟩ := bind_eq_some_iff.mp h
      cases parsed with
      | error error => exact .inl (rejected_short (by decide) h)
      | ok rules =>
        dsimp only at h
        split at h
        · exact .inl (rejected_short (by decide) h)
        rename_i evaluations hevals
        exact .inr ⟨baseline, candidate, rules, evaluations,
          { inputs := ⟨_, _, _, hoptions, hbase, hcand, hmanifest⟩
            compatible := hcompatible
            evaluations := hevals }⟩

theorem not_suffix_status {status : Text}
    (h : status = ascii "no_threshold" ∨ status = ascii "pass") (line : Text) :
    ¬ Prints (line ++ statusLine status ++ ascii "\n") (ascii "hard_regression") := by
  intro hprints
  have hown : statusLine status ++ ascii "\n" <:+ line ++ statusLine status ++ ascii "\n" :=
    ⟨line, (append_assoc _ _ _).symm⟩
  rcases h with rfl | rfl
  iterate 2 · rcases suffix_or_suffix_of_suffix hprints hown with h | h <;> revert h <;> decide

/-- The statuses that are not a hard regression end otherwise. -/
theorem prints_iff_anyHardFailure (line : Text) (evaluations : List Evaluation) :
    Prints (line ++ statusLine (overallStatus evaluations) ++ ascii "\n")
      (ascii "hard_regression") ↔ anyHardFailure evaluations = true := by
  unfold overallStatus
  split
  · rename_i he
    subst he
    exact ⟨fun h => (not_suffix_status (.inl rfl) line h).elim, fun h => by cases h⟩
  split
  · rename_i hfailure
    exact ⟨fun _ => hfailure, fun _ => ⟨line, (append_assoc _ _ _).symm⟩⟩
  · rename_i hfailure
    exact ⟨fun h => (not_suffix_status (.inr rfl) line h).elim, fun h => (hfailure h).elim⟩

/-- The result fits and is written whole. -/
def Whole (result : Option Text) (answers : List WriteAnswer) : Prop :=
  ∃ text left, result = some text ∧ writeAll text answers = some (text, true, left)

/-- What comes of a result: it does not fit or is written in part, or it is written whole. -/
theorem printResult_cases {hardFailure : Bool} {result : Option Text}
    (h : printResult hardFailure answers result = some outcome) :
    (outcome.exitCode = .outputFailure ∧ ¬ Whole result answers ∧
      (outcome.stdout = [] ∨ ∃ rest, rest ≠ [] ∧ result = some (outcome.stdout ++ rest))) ∨
      (outcome.exitCode = (if hardFailure then ExitCode.hardRegression else .success) ∧
        Whole result answers ∧ result = some outcome.stdout) := by
  cases result with
  | none =>
    cases h
    exact .inl ⟨rfl, (fun ⟨_, _, h, _⟩ => by cases h), .inl rfl⟩
  | some text =>
    obtain ⟨⟨printed, complete, left⟩, hwrite, hout⟩ := map_eq_some_iff.mp h
    obtain ⟨rest, rfl, hcmpl⟩ := writeAll_printed hwrite
    cases hout
    cases complete with
    | false =>
      refine .inl ⟨rfl, ?_, .inr ⟨rest, fun h => Bool.false_ne_true (hcmpl.mpr h), rfl⟩⟩
      rintro ⟨_, _, ⟨⟩, hwhole⟩
      rw [hwrite] at hwhole
      exact Bool.false_ne_true (congrArg (·.2.1) (Option.some.inj hwhole))
    | true =>
      rw [hcmpl.mp rfl, append_nil] at hwrite ⊢
      exact .inr ⟨rfl, ⟨printed, left, rfl, hwrite⟩, rfl⟩

/-- An output that fails prints no status, and one that does not prints that of the rules. -/
theorem writeResult_cases {baseline : Artifact} {evaluations : List Evaluation}
    (h : writeResult baseline evaluations answers = some outcome) :
    (outcome.exitCode = .outputFailure ∧ ¬ Whole (resultText baseline evaluations) answers ∧
      ¬ Prints outcome.stdout (ascii "hard_regression")) ∨
      (outcome.exitCode =
          (if anyHardFailure evaluations = true then ExitCode.hardRegression else .success) ∧
        Whole (resultText baseline evaluations) answers ∧
        (Prints outcome.stdout (ascii "hard_regression") ↔ anyHardFailure evaluations = true)) := by
  rcases printResult_cases h with ⟨hcode, hpart, he | ⟨rest, hr, ht⟩⟩ | ⟨hcode, hwhole, ht⟩
  · refine .inl ⟨hcode, hpart, not_prints_of_short ?_⟩
    rw [he]
    exact Nat.zero_le _
  · obtain ⟨body, hbody, hline⟩ := resultText_eq ht
    exact .inl ⟨hcode, hpart, not_prints_of_part hline hbody hr⟩
  obtain ⟨body, hbody, _⟩ := resultText_eq ht
  have hprints := prints_iff_anyHardFailure body evaluations
  rw [← hbody] at hprints
  exact .inr ⟨hcode, hwhole, hprints⟩

end

theorem ExitCode.toNat_eq_one (exitCode : ExitCode) :
    exitCode.toNat = 1 ↔ exitCode = .hardRegression := by
  cases exitCode <;> decide

/-- The regression gate is sound and complete on separated data, and the evaluator exits with 1
when it prints a hard regression, which is when an applicable hard rule has one and the result is
written whole. It exits with 74 when the result is not. -/
theorem regression_gate :
    (∀ (baseline candidate : MetricSeries) (metric : MetricId) (rule : Rule) (interval : Interval),
      bootstrapInterval baseline candidate metric rule.higherIsBetter = .ok interval →
      rule.allowedRegressionPpm.toNat + rule.noiseBandPpm.toNat < 2 ^ 64 →
      interval.lower ≤ interval.upper ∧
      ((∀ c ∈ candidate.values, ∀ b ∈ baseline.values, AsGood rule.higherIsBetter c b) →
        rule.regression interval = false) ∧
      (∀ b ∈ baseline.values, ∀ c ∈ candidate.values,
        (∀ value ∈ baseline.values, AsGood rule.higherIsBetter value b) →
        (∀ value ∈ candidate.values, AsGood rule.higherIsBetter c value) →
        ∀ favourable, regressionPpm b c rule.higherIsBetter = some favourable →
        (rule.allowedRegressionPpm.toNat + rule.noiseBandPpm.toNat : ℤ) < favourable →
        rule.regression interval = true)) ∧
    (∀ (arguments : List Text) (files : Text → Option Text) (answers : List WriteAnswer)
        (outcome : Outcome), main arguments files answers = some outcome →
      (outcome.exitCode.toNat = 1 ↔ Prints outcome.stdout (ascii "hard_regression")) ∧
      (Prints outcome.stdout (ascii "hard_regression") → ∃ baseline candidate rules evaluations,
          Evaluated arguments files baseline candidate rules evaluations) ∧
      ∀ baseline candidate rules evaluations,
        Evaluated arguments files baseline candidate rules evaluations →
        (Prints outcome.stdout (ascii "hard_regression") ↔
          HardRegression baseline candidate rules ∧
            Whole (resultText baseline evaluations) answers) ∧
        (outcome.exitCode.toNat = 74 ↔ ¬ Whole (resultText baseline evaluations) answers)) := by
  constructor
  · intro baseline candidate metric rule interval hinterval hthreshold
    have hflag := rule.regression_iff hthreshold (lower_le_unbounded hinterval)
    refine ⟨(bootstrapInterval_ok hinterval).1, ?_, ?_⟩
    · intro hseparated
      have hlower := lower_nonpos hinterval hseparated
      rw [← Bool.not_eq_true, hflag]
      omega
    intro b _ c _ hb hc favourable hfavourable hexceeds
    have hlower := favourable_le_lower hinterval hb hc hfavourable
    rw [hflag]
    omega
  intro arguments files answers outcome hmain
  rw [ExitCode.toNat_eq_one]
  refine ⟨?_, ?_, ?_⟩
  · rcases main_cases hmain with ⟨hcode, hshort⟩ | ⟨baseline, candidate, rules, evaluations, h⟩
    · have hprints : ¬ Prints outcome.stdout (ascii "hard_regression") :=
        not_prints_of_short hshort
      exact ⟨fun h => (hcode h).elim, fun h => (hprints h).elim⟩
    rw [main_of_evaluated h] at hmain
    rcases writeResult_cases hmain with ⟨hcode, -, hprints⟩ | ⟨hcode, -, hprints⟩
    · rw [hcode]
      exact ⟨fun h => ExitCode.noConfusion h, fun h => (hprints h).elim⟩
    rw [hcode, hprints]
    split
    · rename_i hfailure
      exact ⟨fun _ => hfailure, fun _ => rfl⟩
    · rename_i hfailure
      exact ⟨fun h => ExitCode.noConfusion h, fun h => (hfailure h).elim⟩
  · intro hprints
    rcases main_cases hmain with ⟨_, hshort⟩ | hevaluated
    · exact (not_prints_of_short hshort hprints).elim
    · exact hevaluated
  intro baseline candidate rules evaluations h
  rw [main_of_evaluated h] at hmain
  rw [← anyHardFailure_iff h.evaluations]
  rcases writeResult_cases hmain with ⟨hcode, hpart, hprints⟩ | ⟨hcode, hwhole, hprints⟩
  · rw [hcode]
    exact ⟨⟨fun h => (hprints h).elim, fun h => (hpart h.2).elim⟩, fun _ => hpart, fun _ => rfl⟩
  · rw [hcode, hprints]
    refine ⟨⟨fun h => ⟨h, hwhole⟩, And.left⟩, fun h => ?_, fun h => (h hwhole).elim⟩
    split at h <;> cases h

/-- A series of ten equal samples. -/
def constant (value : Word) : MetricSeries := { values := replicate 10 value, available := true }

theorem drawSample_constant {value : Word} (h : 10 * value.toNat < 2 ^ 64) (state : Word) :
    (drawSample .latency (constant value) state).2 = some value := by
  have hbounds : ∀ other ∈ replicate 10 value,
      value.toNat ≤ other.toNat ∧ other.toNat ≤ value.toNat := by
    intro other hother
    rw [eq_of_mem_replicate hother]
    exact ⟨le_refl _, le_refl _⟩
  have hlength : (replicate 10 value).length = 10 := length_replicate
  have htotal : (0#64).toNat + (replicate 10 value).length * value.toNat < 2 ^ 64 := by
    rw [hlength]
    exact (zero_add _).trans_lt h
  obtain ⟨total, htotal⟩ := isSome_iff_exists.mp (sampleTotal_isSome state
    (ne_nil_of_length_pos (by omega)) (fun other ho => (hbounds other ho).2) htotal)
  have hmean := sampleMean_eq (replicate 10 value) state (by
    rw [hlength]
    decide)
  rw [htotal] at hmean
  obtain ⟨hlow, hhigh⟩ := sampleMean_bounds hbounds hmean
  unfold drawSample
  rw [if_neg (by decide)]
  exact hmean.trans (congrArg some (BitVec.eq_of_toNat_eq (le_antisymm hhigh hlow)))

variable {higherIsBetter : Bool} {b c : Word} {result : ℤ}

theorem bootstrapSamples_constant (hb : 10 * b.toNat < 2 ^ 64) (hc : 10 * c.toNat < 2 ^ 64)
    (h : regressionPpm b c higherIsBetter = some result) (iterations : ℕ) (state : Word) :
    bootstrapSamples (constant b) (constant c) .latency higherIsBetter iterations state =
      .ok (replicate iterations result) := by
  induction iterations generalizing state with
  | zero => rfl
  | succ iterations ih =>
    rw [bootstrapSamples_succ, drawSample_constant hb, drawSample_constant hc]
    simp only [h, ih]
    rfl

theorem bootstrapInterval_constant (hne : b ≠ 0) (hb : 10 * b.toNat < 2 ^ 64)
    (hc : 10 * c.toNat < 2 ^ 64) (h : regressionPpm b c higherIsBetter = some result) :
    bootstrapInterval (constant b) (constant c) .latency higherIsBetter =
      .ok { lower := result, upper := result } := by
  have hnz : hasNonzeroSample (constant b) = true := by
    simpa [hasNonzeroSample, constant] using hne
  have hsorted : (replicate bootstrapResamples result).Pairwise
      (fun left right => decide (left ≤ right) = true) :=
    pairwise_replicate.mpr (.inr (decide_eq_true (le_refl result)))
  have hget (index : ℕ) (hidx : index < bootstrapResamples) :
      (replicate bootstrapResamples result).getD index 0 = result := by
    rw [getD_eq_getElem?_getD, getElem?_replicate, if_pos hidx]
    rfl
  unfold bootstrapInterval
  rw [if_neg (by simp [constant]), if_neg (fun h => h.1 hnz), bootstrapSamples_constant hb hc h]
  change Except.ok _ = _
  rw [mergeSort_of_pairwise hsorted, hget _ (by decide), hget _ (by decide)]

/-- A workload of backslashes, which is half as many escapes. -/
def backslashes (n : ℕ) : Text := replicate (2 * n + 2) backslash

def texts (keys : List String) : List (String × Json) :=
  keys.map fun key => (key, .string (ascii "x"))

def numbers (keys : List String) : List (String × Json) :=
  keys.map fun key => (key, .number (ascii "10"))

/-- A metric that was not measured. -/
def unavailable : List (String × Json) :=
  ("status", .string (ascii "unavailable")) :: texts ["reason"]

def uninstrumented : Json :=
  objectOf (("instrumented", .boolean false) :: numbers ["value"] ++ unavailable)

/-- An artifact behind its workload; its ten latencies are equal. -/
def sampleMembers (slow : Bool) : List (String × Json) :=
  [("schema_version", .string (ascii "laghu-benchmark-v1")),
    ("build", objectOf (texts ["build_id", "profile", "sanitizer_profile"] ++
      [("compiler", objectOf (texts ["id", "version"])),
        ("standard_library", objectOf (texts ["id", "version"])),
        ("target", objectOf (texts ["architecture", "os"])), ("hardening", objectOf []),
        ("dependencies", arrayOf []), ("features", arrayOf [])])),
    ("cpu", objectOf [("description",
      objectOf (("status", .string (ascii "available")) :: texts ["value"]))]),
    ("parameters", objectOf (numbers ["intervals", "operations_per_interval", "warmup"])),
    ("workload_checksum", .number (ascii "10")),
    ("metrics", objectOf
      [("allocation_count", uninstrumented), ("laghu_syscall_count", uninstrumented),
        ("cpu_time_ns", objectOf unavailable), ("peak_rss_bytes", objectOf unavailable),
        ("throughput_operations_per_second", objectOf unavailable),
        ("latency_ns_per_interval", objectOf (("samples_ns",
          arrayOf (replicate 10 (.number (if slow then ascii "2" else ascii "1")))) ::
          numbers ["p50", "p95", "p99", "p99_9"]))])]

def sampleTree (n : ℕ) (slow : Bool) : Json :=
  objectOf (("workload", .string (backslashes n)) :: sampleMembers slow)

def sampleArtifact (n : ℕ) (slow : Bool) : Artifact :=
  let x := ascii "x"
  ⟨x, x, x, x, x, x, ascii "\x7b\x7d", x, x, x, x, true, ascii "[]", ascii "[]",
    ascii "\x7b\"intervals\":10,\"operations_per_interval\":10,\"warmup\":10\x7d",
    backslashes n, 10#64, fun
      | .latency => constant (if slow then 2#64 else 1#64)
      | .throughput | .cpuTime | .peakRss | .allocation | .laghuSyscall => { reason := x }⟩

section

variable {n : ℕ} (slow : Bool)

set_option maxRecDepth 20000 in
theorem artifact_sampleTree (storage : Text) (cursor : ℕ) :
    (JsonDocument.mk storage cursor 0 (({} : JsonTables).record (sampleTree n slow))).artifact =
      .ok (sampleArtifact n slow) := by
  -- of the workload the loader only asks whether it is empty
  have hcons : backslashes n = backslash :: replicate (2 * n + 1) backslash := rfl
  unfold sampleTree sampleArtifact
  rw [hcons]
  generalize replicate (2 * n + 1) backslash = rest
  cases slow <;> cbv

set_option maxRecDepth 20000 in
theorem sampleTree_limits : (sampleTree n slow).height ≤ maximumDepth ∧
    (sampleTree n slow).values ≤ maximumJsonNodes ∧
    (sampleTree n slow).memberTotal ≤ maximumJsonMembers ∧
    (sampleTree n slow).elementTotal ≤ maximumJsonElements := by
  cases slow <;> cbv

theorem stringBody_backslashes (n : ℕ) : StringBody (backslashes n) := by
  induction n with
  | zero => exact .escape (by decide) .nil
  | succ n ih => exact .escape (by decide) ih

theorem wellFormed_sampleTree : WellFormed (sampleTree n slow) := by
  have hplain {text : String} (h : (ascii text).all isPlain = true) :
      WellFormed (.string (ascii text)) := .string (stringBody_of_plain h)
  have hmembers : ∀ member ∈ sampleMembers slow,
      StringBody (ascii member.1) ∧ WellFormed member.2 := by
    cases slow
    -- one rule for each kind of value, down to the texts and numbers
    all_goals
      repeat' first
        | exact forall_mem_nil _
        | refine forall_mem_cons.mpr ⟨⟨stringBody_of_plain (by decide), ?_⟩, ?_⟩
        | refine wellFormed_objectOf (by decide +kernel) ?_
        | exact hplain (by decide)
        | exact .number (by constructor <;> decide) (by decide)
        | exact .boolean _
        | refine .array ?_ (layout_joined _)
        | refine forall_mem_replicate.mpr (.inr ?_)
  have hkeys : (ascii "workload" :: (sampleMembers slow).map fun m => ascii m.1).Nodup := by
    cases slow <;> decide +kernel
  have hkey : StringBody (ascii "workload") := stringBody_of_plain (by decide)
  exact wellFormed_objectOf hkeys (forall_mem_cons.mpr
    ⟨⟨hkey, .string (stringBody_backslashes n)⟩, hmembers⟩)

theorem length_sampleTree (h : n ≤ 130000) : (sampleTree n slow).raw.length ≤ 262144 := by
  have hraw : (sampleTree n slow).raw = openBrace ::
      ((memberOf ("workload", .string (backslashes n)) ++
        comma :: joined ((sampleMembers slow).map memberOf)) ++ [closeBrace]) := rfl
  have hrest : (joined ((sampleMembers slow).map memberOf)).length ≤ 2000 := by
    cases slow <;> decide +kernel
  have hkey : (ascii "workload").length = 8 := by decide
  rw [hraw]
  simp only [memberOf, Json.raw, backslashes, length_append, length_cons, length_replicate,
    length_nil, hkey]
  omega

theorem loadArtifact_sampleTree (h : n ≤ 130000) :
    loadArtifact (some (sampleTree n slow).raw) = some (.ok (sampleArtifact n slow)) := by
  obtain ⟨hheight, hvalues, hmembers, helements⟩ := sampleTree_limits (n := n) slow
  obtain ⟨⟨storage, cursor, root, tables⟩, hload, hroot, htables⟩ :=
    load_of_document (length_sampleTree slow h)
      ⟨⟨[], [], (append_nil _).symm, blank_nil, blank_nil⟩, wellFormed_sampleTree slow, hheight,
        hvalues, hmembers, helements⟩
  cases hroot
  cases htables
  rw [loadArtifact, hload]
  exact congrArg some (artifact_sampleTree slow storage cursor)

end

variable {n : ℕ}

/-- The environment does not depend on the workload. -/
def sampleEnvironment : Text := hexEnvironment (environmentHash (sampleArtifact 0 false))

def hardRule (n : ℕ) : Rule :=
  { workload := backslashes n
    metric := ascii "latency_ns_per_interval"
    referenceEnvironment := sampleEnvironment
    hard := true }

/-- What stands behind the workload. -/
def ruleText : Text :=
  ascii "latency_ns_per_interval\tlower\t0\t0\t" ++ sampleEnvironment ++ ascii "\thard"

def hardManifest (n : ℕ) : Text := backslashes n ++ 0x09#8 :: ruleText

theorem parseManifest_hardRule (h : n ≤ 130000) :
    parseManifest (some (hardManifest n)) = some (.ok [hardRule n]) := by
  have hnot {c : Byte} (hc : c ≠ backslash) : c ∉ backslashes n :=
    fun hmem => hc (eq_of_mem_replicate hmem)
  have hlines : ruleLines (hardManifest n) = [hardManifest n] := by
    have hline : 0x0a#8 ∉ hardManifest n :=
      not_mem_append (hnot (by decide)) (by decide +kernel)
    have htrim : trimLine (hardManifest n) = hardManifest n := by
      refine if_neg ?_
      rw [hardManifest, getLast?_append_of_ne_nil _ (cons_ne_nil _ _)]
      decide +kernel
    rw [ruleLines, splitOn_eq_singleton hline, map_singleton, htrim]
    rfl
  have hsize : (hardManifest n).length ≤ maximumDocumentBytes := by
    have hrest : (0x09#8 :: ruleText).length ≤ 100 := by decide +kernel
    rw [hardManifest, length_append, backslashes, length_replicate]
    change _ ≤ 262144
    omega
  have hfields : ruleText.splitOn 0x09#8 = [ascii "latency_ns_per_interval", ascii "lower",
      ascii "0", ascii "0", sampleEnvironment, ascii "hard"] := by decide +kernel
  have hzero : parsePercentPpm (ascii "0") = some 0 := by decide +kernel
  have hdigits : sampleEnvironment.length = 16 ∧
      ∀ character ∈ sampleEnvironment, isEnvironmentDigit character := by decide +kernel
  refine (parseManifest_ok hsize _).mpr ⟨?_, Nat.le_of_ble_eq_true rfl, pairwise_singleton _ _⟩
  rw [hlines]
  refine .cons ⟨ascii "lower", ascii "0", ascii "0", ascii "hard", ?_, cons_ne_nil _ _, ?_, rfl,
    hzero, hzero, hdigits.1, hdigits.2, rfl⟩ .nil
  · rw [hardManifest, splitOn_append_cons (hnot (by decide)), hfields]
    rfl
  · exact mem_cons_self ..

def sampleArguments : List Text :=
  ["--baseline", "fast", "--candidate", "slow", "--manifest", "rules"].map ascii

def sampleFiles (n : ℕ) (path : Text) : Option Text :=
  some (if path = ascii "rules" then hardManifest n
    else (sampleTree n (path = ascii "slow")).raw)

def hardEvaluation (n : ℕ) : Evaluation := ⟨hardRule n, ⟨1000000, 1000000⟩, true⟩

theorem evaluateRule_hardRule : evaluateRule (sampleArtifact n false) (sampleArtifact n true)
    (hardRule n) = .ok (hardEvaluation n) := by
  have henvironment : (hardRule n).referenceEnvironment =
      hexEnvironment (environmentHash (sampleArtifact n false)) := rfl
  have hinterval : bootstrapInterval ((sampleArtifact n false).metrics .latency)
      ((sampleArtifact n true).metrics .latency) .latency false = .ok ⟨1000000, 1000000⟩ :=
    bootstrapInterval_constant (by decide) (by decide) (by decide) (by decide)
  unfold evaluateRule
  simp only [henvironment, ne_eq, not_true_eq_false, if_false,
    show metricId (hardRule n).metric = some .latency from rfl,
    show (hardRule n).higherIsBetter = false from rfl, hinterval]
  rfl

theorem evaluated_sample (h : n ≤ 130000) : Evaluated sampleArguments (sampleFiles n)
    (sampleArtifact n false) (sampleArtifact n true) [hardRule n] [hardEvaluation n] := by
  refine ⟨⟨ascii "fast", ascii "slow", ascii "rules", by decide +kernel, ?_, ?_, ?_⟩, ?_, ?_⟩
  · exact loadArtifact_sampleTree false h
  · exact loadArtifact_sampleTree true h
  · exact parseManifest_hardRule h
  · simp [equalConfiguration, sampleArtifact]
  have hfilter : [hardRule n].filter (·.applicable (sampleArtifact n false)) = [hardRule n] := by
    simp [Rule.applicable, hardRule, sampleArtifact]
  rw [evaluateRules, hfilter, mapM_cons, evaluateRule_hardRule]
  rfl

/-- A candidate takes twice as long as its baseline, and the rule against it is hard. -/
theorem regression_gate_printed : ∃ outcome,
    main sampleArguments (sampleFiles 0) [.written 1000] = some outcome ∧
      outcome.exitCode.toNat = 1 ∧ Prints outcome.stdout (ascii "hard_regression") ∧
      (hardRule 0).regression ⟨1000000, 1000000⟩ = true ∧
      HardRegression (sampleArtifact 0 false) (sampleArtifact 0 true) [hardRule 0] := by
  have h := evaluated_sample (n := 0) (by decide)
  have hcode : (writeResult (sampleArtifact 0 false) [hardEvaluation 0] [.written 1000]).map
      (·.exitCode) = some .hardRegression := by decide +kernel
  rw [← main_of_evaluated h] at hcode
  obtain ⟨outcome, hmain, hcode⟩ := map_eq_some_iff.mp hcode
  obtain ⟨hexit, -, hprints⟩ := regression_gate.2 _ _ _ _ hmain
  have hone : outcome.exitCode.toNat = 1 := congrArg ExitCode.toNat hcode
  have hflagged := (regression_gate.1 (constant 1) (constant 2) .latency (hardRule 0)
    ⟨1000000, 1000000⟩ (bootstrapInterval_constant (by decide) (by decide) (by decide) (by decide))
    (by decide)).2.2
  refine ⟨outcome, hmain, hone, hexit.mp hone, ?_, ((hprints _ _ _ _ h).1.mp (hexit.mp hone)).1⟩
  refine hflagged 1 (by decide) 2 (by decide) (fun value hvalue => ?_) (fun value hvalue => ?_)
    1000000 (by decide) (by decide)
  iterate 2
    rw [eq_of_mem_replicate hvalue]
    exact le_refl _

theorem each_backslash {written result : Text}
    (h : each JsonWriter.appendCharacter (replicate (n + 1) backslash) written = some result) :
    written.length + 2 * (n + 1) ≤ maximumDocumentBytes := by
  induction n generalizing written with
  | zero =>
    obtain ⟨more, hfirst, _⟩ := bind_eq_some_iff.mp h
    exact (append_eq_some.mp hfirst).1
  | succ n ih =>
    obtain ⟨more, hfirst, hrest⟩ := bind_eq_some_iff.mp h
    obtain ⟨_, rfl⟩ := append_eq_some.mp hfirst
    have hlength := ih hrest
    rw [length_append] at hlength
    change _ + 2 + _ ≤ _ at hlength
    omega

/-- Each backslash of the workload takes two characters of the result. -/
theorem resultText_overflows (h : 65536 ≤ n) (baseline : Artifact) :
    resultText baseline [hardEvaluation n] = none := by
  have heach (written : Text) :
      each JsonWriter.appendCharacter (backslashes n) written = none := by
    refine eq_none_iff_forall_ne_some.mpr fun result hresult => ?_
    have hlength := each_backslash hresult
    change _ ≤ 262144 at hlength
    omega
  -- the workload is the last text of an evaluation, and the evaluations end the head of a result
  have hworkload : ∀ written, JsonWriter.appendString (backslashes n) written = none :=
    sequence_eq_none (mem_of_getElem? (i := 1) rfl) heach
  have hevaluation : ∀ written, writeEvaluation (hardEvaluation n) written = none :=
    sequence_eq_none (mem_of_getElem? (i := 17) rfl) hworkload
  exact sequence_eq_none (mem_of_getElem? (i := 8) rfl)
    (sequence_eq_none (mem_cons_self ..) hevaluation) []

/-- The result for a workload of 132000 backslashes does not fit: a hard rule has a regression,
but nothing is printed, and the exit is another one. -/
theorem long_result_unprinted : ∃ arguments files baseline candidate rules evaluations,
    Evaluated arguments files baseline candidate rules evaluations ∧
      baseline.workload = replicate 132000 backslash ∧ HardRegression baseline candidate rules ∧
      ∀ answers, main arguments files answers = some { exitCode := .outputFailure } := by
  have h := evaluated_sample (n := 65999) (by decide)
  refine ⟨_, _, _, _, _, _, h, rfl, (anyHardFailure_iff h.evaluations).mp rfl, ?_⟩
  intro answers
  rw [main_of_evaluated h, writeResult, resultText_overflows (by decide)]
  rfl

end Laghu.Evaluator
