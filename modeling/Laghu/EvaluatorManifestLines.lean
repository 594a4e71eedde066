import Laghu.Contract
import Laghu.EvaluatorManifests
import Laghu.SplitTexts

/-!
What a manifest says. Its lines are the pieces between newlines; those that are neither empty
nor comments have seven fields each, which are the pieces between tabs. The two loops of the
parser find these pieces, and the comparison of each rule with the one before it orders all of
them, so that no two rules have the same workload and metric.
-/

namespace Laghu.Evaluator

open JsonTexts List
open BigEndian (Byte)

variable {text line storage : Text}

theorem splitOn_append_cons {separator : Byte} (h : separator ∉ text) (rest : Text) :
    (text ++ separator :: rest).splitOn separator = text :: rest.splitOn separator := by
  rw [splitOn_append_cons_self, splitOn_eq_singleton h]
  rfl

theorem slice_append (before text rest : Text) :
    slice (before ++ text ++ rest) before.length (before.length + text.length) = text := by
  unfold slice
  rw [← length_append, take_left, drop_left]

/-- The fields are those before and the pieces of what is left, unless they are more than
seven. -/
theorem splitFields_spec (rest : Text) (before field : Text) (fields : List Text)
    (hfield : 0x09#8 ∉ field) :
    splitFields (before ++ field ++ rest) (rest.length + 1) (before.length + field.length)
        before.length fields =
      if fields.length + ((field ++ rest).splitOn 0x09#8).length ≤ 7 then
        some (fields ++ (field ++ rest).splitOn 0x09#8)
      else none := by
  induction rest generalizing before field fields with
  | nil =>
    rw [append_nil field, splitOn_eq_singleton hfield, splitFields,
      if_pos (.inl (by simp)), slice_append]
    split
    · rw [if_neg (by simp only [length_singleton]; omega)]
    · rw [if_pos (by simp only [length_singleton]; omega)]
      rfl
  | cons character rest ih =>
    have hat : (before ++ field ++ character :: rest)[before.length + field.length]? =
        some character := by
      rw [← length_append, getElem?_append_right (le_refl _), Nat.sub_self]
      rfl
    have hin : before.length + field.length ≠ (before ++ field ++ character :: rest).length := by
      simp only [length_append, length_cons]
      omega
    rw [length_cons, splitFields, hat, slice_append]
    by_cases htab : character = 0x09#8
    · subst htab
      rw [if_pos (.inr rfl), splitOn_append_cons hfield]
      have hnext := ih (before ++ field ++ [0x09#8]) [] (fields ++ [field]) (by simp)
      simp only [append_nil, nil_append, length_append, length_nil,
        append_assoc, length_singleton, add_zero, singleton_append] at hnext
      split
      · rw [if_neg (by simp only [length_cons]; omega)]
      · rw [append_assoc, add_assoc, hnext]
        simp only [length_cons, add_assoc, add_comm 1]
    rw [if_neg (by
      rintro (hend | hchar)
      · exact hin hend
      · exact htab (Option.some.inj hchar))]
    have hnext := ih before (field ++ [character]) fields (by
      simp only [mem_append, mem_singleton, not_or]
      exact ⟨hfield, fun h => htab h.symm⟩)
    simp only [append_assoc, singleton_append, length_append,
      length_singleton, ← add_assoc] at hnext
    rw [append_assoc, hnext]

theorem splitFields_eq (line : Text) : splitFields line (line.length + 1) 0 0 [] =
      if (line.splitOn 0x09#8).length ≤ 7 then some (line.splitOn 0x09#8) else none := by
  have h := splitFields_spec line [] [] [] (by simp)
  simpa using h

/-- The names `metric_id` knows. -/
def metricNames : List Text :=
  [ascii "latency_ns_per_interval", ascii "throughput_operations_per_second",
    ascii "cpu_time_ns", ascii "peak_rss_bytes", ascii "allocation_count",
    ascii "laghu_syscall_count"]

theorem mem_metricNames (name : Text) :
    name ∈ metricNames ↔ ∃ metric, metricId name = some metric := by
  unfold metricId
  simp only [metricNames, mem_cons, not_mem_nil, or_false]
  constructor
  · rintro (rfl | rfl | rfl | rfl | rfl | rfl) <;> exact ⟨_, rfl⟩
  rintro ⟨metric, h⟩
  by_contra hname
  simp only [not_or] at hname
  obtain ⟨h₁, h₂, h₃, h₄, h₅, h₆⟩ := hname
  rw [if_neg h₁, if_neg h₂, if_neg h₃, if_neg h₄, if_neg h₅, if_neg h₆] at h
  cases h

/-- A line of seven fields that are valid, and the rule they say. -/
structure RuleFields (line : Text) (rule : Rule) (direction allowed noise mode : Text) : Prop where
  fields : line.splitOn 0x09#8 =
    [rule.workload, rule.metric, direction, allowed, noise, rule.referenceEnvironment, mode]
  workload : rule.workload ≠ []
  metric : rule.metric ∈ metricNames
  direction : direction = if rule.higherIsBetter then ascii "higher" else ascii "lower"
  allowed : parsePercentPpm allowed = some rule.allowedRegressionPpm
  noise : parsePercentPpm noise = some rule.noiseBandPpm
  environmentSize : rule.referenceEnvironment.length = 16
  environment : ∀ character ∈ rule.referenceEnvironment, isEnvironmentDigit character
  mode : mode = if rule.hard then ascii "hard" else ascii "advisory"

def RuleLine (line : Text) (rule : Rule) : Prop :=
  ∃ direction allowed noise mode, RuleFields line rule direction allowed noise mode

theorem orError_bind {α β : Type} (error : Text) (value : Option α) (next : α → Except Text β)
    (result : β) :
    (orError error value >>= next) = .ok result ↔ ∃ a, value = some a ∧ next a = .ok result := by
  cases value with
  | none => exact ⟨(fun h => by cases h), (fun ⟨a, h, _⟩ => by cases h)⟩
  | some a => exact ⟨fun h => ⟨a, rfl, h⟩, fun ⟨b, hb, h⟩ => by cases hb; exact h⟩

theorem parseDirection_eq_some (field : Text) (higherIsBetter : Bool) :
    parseDirection field = some higherIsBetter ↔
      field = if higherIsBetter then ascii "higher" else ascii "lower" := by
  have hdist : ascii "higher" ≠ ascii "lower" := by decide
  unfold parseDirection
  by_cases hlower : field = ascii "lower"
  · subst hlower
    cases higherIsBetter <;> simp [hdist.symm]
  by_cases hhigher : field = ascii "higher"
  · subst hhigher
    cases higherIsBetter <;> simp [hdist]
  · cases higherIsBetter <;> simp [hlower, hhigher]

theorem parseMode_eq_some (field : Text) (hard : Bool) :
    parseMode field = some hard ↔ field = if hard then ascii "hard" else ascii "advisory" := by
  have hdist : ascii "hard" ≠ ascii "advisory" := by decide
  unfold parseMode
  by_cases hhard : field = ascii "hard"
  · subst hhard
    cases hard <;> simp [hdist]
  by_cases hadvisory : field = ascii "advisory"
  · subst hadvisory
    cases hard <;> simp [hdist.symm]
  · cases hard <;> simp [hhard, hadvisory]

theorem parseFields_length {fields : List Text} {rule : Rule} (h : parseFields fields = .ok rule) :
    ∃ workload metric direction allowed noise environment mode,
      fields = [workload, metric, direction, allowed, noise, environment, mode] := by
  unfold parseFields at h
  split at h
  · exact ⟨_, _, _, _, _, _, _, rfl⟩
  · cases h

theorem metricName_ne_nil {name : Text} (h : name ∈ metricNames) : name ≠ [] := by
  rintro rfl
  revert h
  decide

theorem parseFields_ok (line : Text) (rule : Rule) :
    parseFields (line.splitOn 0x09#8) = .ok rule ↔ RuleLine line rule := by
  constructor
  · intro h
    obtain ⟨workload, metric, direction, allowed, noise, environment, mode, hf⟩ :=
      parseFields_length h
    rw [hf] at h
    obtain ⟨⟨allowedPpm, noisePpm⟩, hvals, h⟩ := (orError_bind _ _ _ _).mp h
    obtain ⟨id, hmetric, h⟩ := (orError_bind _ _ _ _).mp h
    obtain ⟨higherIsBetter, hdir, h⟩ := (orError_bind _ _ _ _).mp h
    split at hvals
    · cases hvals
    rename_i hnonempty
    obtain ⟨_, hallowed, hvals⟩ := Option.bind_eq_some_iff.mp hvals
    obtain ⟨_, hnoise, hvals⟩ := Option.bind_eq_some_iff.mp hvals
    cases hvals
    split at h
    · cases h
    rename_i henv
    obtain ⟨hard, hmode, h⟩ := (orError_bind _ _ _ _).mp h
    cases h
    simp only [not_or, not_not, all_eq_true] at henv
    exact ⟨direction, allowed, noise, mode,
      { fields := hf
        workload := fun h => hnonempty (.inl h)
        metric := (mem_metricNames _).mpr ⟨id, hmetric⟩
        direction := (parseDirection_eq_some _ _).mp hdir
        allowed := hallowed
        noise := hnoise
        environmentSize := henv.1
        environment := henv.2
        mode := (parseMode_eq_some _ _).mp hmode }⟩
  · rintro ⟨direction, allowed, noise, mode, h⟩
    obtain ⟨id, hmetric⟩ := (mem_metricNames _).mp h.metric
    rw [h.fields]
    refine (orError_bind _ _ _ _).mpr ⟨(rule.allowedRegressionPpm, rule.noiseBandPpm), ?_, ?_⟩
    · rw [if_neg (not_or.mpr ⟨h.workload, metricName_ne_nil h.metric⟩), h.allowed, h.noise]
      rfl
    refine (orError_bind _ _ _ _).mpr ⟨id, hmetric, ?_⟩
    refine (orError_bind _ _ _ _).mpr
      ⟨rule.higherIsBetter, (parseDirection_eq_some _ _).mpr h.direction, ?_⟩
    rw [if_neg (by
      rw [not_or, not_not, not_not, all_eq_true]
      exact ⟨h.environmentSize, h.environment⟩)]
    exact (orError_bind _ _ _ _).mpr ⟨rule.hard, (parseMode_eq_some _ _).mpr h.mode, rfl⟩

theorem fields_ok (line : Text) (rule : Rule) :
    (orError (ascii "field_count") (splitFields line (line.length + 1) 0 0 []) >>= parseFields) =
        .ok rule ↔ RuleLine line rule := by
  rw [orError_bind, splitFields_eq]
  constructor
  · rintro ⟨fields, hsplit, hf⟩
    split at hsplit
    · cases hsplit
      exact (parseFields_ok line rule).mp hf
    · cases hsplit
  intro h
  refine ⟨_, if_pos ?_, (parseFields_ok line rule).mpr h⟩
  obtain ⟨direction, allowed, noise, mode, h⟩ := h
  rw [h.fields]
  exact le_refl 7

/-- The workload and metric, which order the rules. -/
def Rule.key (rule : Rule) : Text × Text := (rule.workload, rule.metric)

/-- The lexicographic order of pairs of byte texts. -/
def KeyBefore (left right : Text × Text) : Prop :=
  left.1 < right.1 ∨ left.1 = right.1 ∧ left.2 < right.2

theorem KeyBefore.trans {a b c : Text × Text} (hab : KeyBefore a b) (hbc : KeyBefore b c) :
    KeyBefore a c := by
  rcases hab with hab | ⟨hab, hab'⟩
  · rcases hbc with hbc | ⟨hbc, _⟩
    · exact .inl (List.lt_trans hab hbc)
    · exact .inl (hbc ▸ hab)
  rcases hbc with hbc | ⟨hbc, hbc'⟩
  · exact .inl (hab ▸ hbc)
  · exact .inr ⟨hab.trans hbc, List.lt_trans hab' hbc'⟩

theorem KeyBefore.ne {a b : Text × Text} (h : KeyBefore a b) : a ≠ b := by
  rintro rfl
  rcases h with h | ⟨_, h⟩
  · exact List.lt_irrefl _ h
  · exact List.lt_irrefl _ h

theorem compareRuleKey_lt (left right : Rule) :
    compareRuleKey left right = .lt ↔ KeyBefore left.key right.key := by
  unfold compareRuleKey KeyBefore Rule.key
  split
  · rename_i hworkload
    exact ⟨fun _ => .inl hworkload, fun _ => rfl⟩
  rename_i hworkload
  split
  · rename_i ha
    refine ⟨(fun h => by cases h), ?_⟩
    rintro (h | ⟨h, _⟩)
    · exact absurd h hworkload
    change left.workload = right.workload at h
    rw [h] at ha
    exact absurd ha (List.lt_irrefl _)
  rename_i ha
  have hsame : left.workload = right.workload :=
    List.le_antisymm (List.not_lt.mp ha) (List.not_lt.mp hworkload)
  split
  · rename_i hmetric
    exact ⟨fun _ => .inr ⟨hsame, hmetric⟩, fun _ => rfl⟩
  rename_i hmetric
  refine ⟨(fun h => by split at h <;> cases h), ?_⟩
  rintro (h | ⟨_, h⟩)
  · exact absurd h hworkload
  · exact absurd h hmetric

/-- A line that holds a rule: it is neither empty nor a comment. -/
def holdsRule (line : Text) : Bool := line ≠ [] ∧ line.head? ≠ some 0x23#8

/-- The lines of a manifest that hold rules: the pieces between newlines, without a carriage
return before the newline. -/
def ruleLines (storage : Text) : List Text :=
  ((storage.splitOn 0x0a#8).map trimLine).filter holdsRule

theorem parseLine_skip (h : holdsRule (trimLine line) = false) (rules : List Rule) :
    parseLine rules line = .ok rules := by
  apply if_pos
  simp only [holdsRule, decide_eq_false_iff_not, not_and_or, not_not] at h
  exact h

/-- The rules in the order of their keys. -/
def Ordered (rules : List Rule) : Prop := (rules.map Rule.key).Pairwise KeyBefore

variable {rules : List Rule}

theorem ordered_append (h : Ordered rules) (rule : Rule) : Ordered (rules ++ [rule]) ↔
      ∀ last, rules.getLast? = some last → KeyBefore last.key rule.key := by
  unfold Ordered at h ⊢
  rw [map_append, pairwise_append]
  constructor
  · rintro ⟨_, _, hpre⟩ last hl
    exact hpre _ (mem_map_of_mem (mem_of_getLast? hl)) _ (mem_singleton_self _)
  intro hl
  refine ⟨h, pairwise_singleton _ _, ?_⟩
  intro key hkey next hn
  cases mem_singleton.mp hn
  rcases eq_nil_or_concat rules with rfl | ⟨front, last, rfl⟩
  · cases hkey
  have hpre := hl last (by simp)
  rw [concat_eq_append, map_append, pairwise_append] at h
  rw [concat_eq_append, map_append, mem_append] at hkey
  rcases hkey with hkey | hkey
  · exact (h.2.2 key hkey _ (mem_singleton_self _)).trans hpre
  · cases mem_singleton.mp hkey
    exact hpre

theorem parseLine_rule (h : holdsRule (trimLine line) = true) (hord : Ordered rules)
    (hn : rules.length ≤ maximumRules) (result : List Rule) :
    parseLine rules line = .ok result ↔
      ∃ rule, RuleLine (trimLine line) rule ∧ result = rules ++ [rule] ∧
        result.length ≤ maximumRules ∧ Ordered result := by
  have hline : ¬ (trimLine line = [] ∨ (trimLine line).head? = some 0x23#8) := by
    simp only [holdsRule, decide_eq_true_eq] at h
    exact not_or.mpr h
  unfold parseLine
  simp only [if_neg hline]
  split
  · refine ⟨(fun h => by cases h), ?_⟩
    rintro ⟨rule, _, rfl, hlen, _⟩
    rw [length_append, length_singleton] at hlen
    omega
  rw [← bind_assoc]
  constructor
  · intro hres
    obtain ⟨rule, hfields, hres⟩ := Contract.bind_eq_ok.mp hres
    refine ⟨rule, (fields_ok _ _).mp hfields, ?_⟩
    have hsame : result = rules ++ [rule] ∧
        ∀ last, rules.getLast? = some last → KeyBefore last.key rule.key := by
      split at hres
      · rename_i hnone
        cases hres
        rw [getLast?_eq_none_iff.mp hnone]
        exact ⟨rfl, fun last hl => by cases hl⟩
      rename_i last hl
      split at hres
      · rename_i hpre
        cases hres
        refine ⟨rfl, fun last' hl' => ?_⟩
        rw [hl] at hl'
        cases hl'
        exact (compareRuleKey_lt last rule).mp hpre
      · cases hres
    obtain ⟨rfl, hl⟩ := hsame
    refine ⟨rfl, ?_, (ordered_append hord rule).mpr hl⟩
    rw [length_append, length_singleton]
    omega
  · rintro ⟨rule, hrule, rfl, _, hres⟩
    refine Contract.bind_eq_ok.mpr ⟨rule, (fields_ok _ _).mpr hrule, ?_⟩
    have hl := (ordered_append hord rule).mp hres
    cases hcase : rules.getLast? with
    | none =>
      rw [getLast?_eq_none_iff.mp hcase]
      rfl
    | some last => exact if_pos ((compareRuleKey_lt last rule).mpr (hl last hcase))

/-- A run over lines adds the rules of those that hold one. -/
theorem foldlM_parseLine (lines : List Text) (hord : Ordered rules)
    (hn : rules.length ≤ maximumRules) (result : List Rule) :
    lines.foldlM parseLine rules = .ok result ↔
      ∃ added, Forall₂ RuleLine ((lines.map trimLine).filter holdsRule) added ∧
        result = rules ++ added ∧ result.length ≤ maximumRules ∧ Ordered result := by
  induction lines generalizing rules with
  | nil =>
    constructor
    · intro h
      cases h
      exact ⟨[], Forall₂.nil, (append_nil _).symm, hn, hord⟩
    rintro ⟨added, hadded, rfl, _, _⟩
    cases hadded
    rw [append_nil]
    rfl
  | cons line lines ih =>
    rw [foldlM_cons, map_cons, Contract.bind_eq_ok]
    cases hline : holdsRule (trimLine line) with
    | false =>
      rw [filter_cons_of_neg (by rw [hline]; exact Bool.false_ne_true),
        parseLine_skip hline, ← ih hord hn]
      exact ⟨(fun ⟨_, h, hr⟩ => by cases h; exact hr), fun h => ⟨rules, rfl, h⟩⟩
    | true =>
      rw [filter_cons_of_pos hline]
      constructor
      · rintro ⟨middle, hmiddle, hr⟩
        obtain ⟨rule, hrule, rfl, hlen, hmiddle⟩ :=
          (parseLine_rule hline hord hn middle).mp hmiddle
        obtain ⟨added, hadded, rfl, hres⟩ := (ih hmiddle hlen).mp hr
        exact ⟨rule :: added, Forall₂.cons hrule hadded, by simp, hres⟩
      rintro ⟨added, hadded, rfl, hlen, hres⟩
      rcases hadded with _ | ⟨hrule, hadded⟩
      rename_i rule added
      have happend : rules ++ rule :: added = (rules ++ [rule]) ++ added := by simp
      have hmiddle : Ordered (rules ++ [rule]) := by
        unfold Ordered at hres ⊢
        rw [happend, map_append, pairwise_append] at hres
        exact hres.1
      have hshort : (rules ++ [rule]).length ≤ maximumRules := by
        rw [happend, length_append] at hlen
        omega
      exact ⟨_, (parseLine_rule hline hord hn _).mpr ⟨rule, hrule, rfl, hshort, hmiddle⟩,
        (ih hmiddle hshort).mpr ⟨added, hadded, happend, hlen, hres⟩⟩

theorem lineEnd_spec (before line rest : Text) (hline : 0x0a#8 ∉ line)
    (hr : ∀ character, rest.head? = some character → character = 0x0a#8) :
    lineEnd (before ++ (line ++ rest)) (line ++ rest).length before.length =
      before.length + line.length := by
  induction line generalizing before with
  | nil =>
    cases rest with
    | nil => rfl
    | cons character rest =>
      cases hr character rfl
      rw [nil_append, length_cons, lineEnd]
      apply if_neg
      rintro ⟨_, h⟩
      simp at h
  | cons character line ih =>
    simp only [mem_cons, not_or] at hline
    have hat : (before ++ (character :: line ++ rest))[before.length]? = some character := by simp
    have hin : before.length < (before ++ (character :: line ++ rest)).length := by simp
    have hn := ih (before ++ [character]) hline.2
    rw [append_assoc, show (before ++ [character]).length = before.length + 1 by simp] at hn
    change lineEnd _ ((line ++ rest).length + 1) _ = _
    rw [lineEnd, if_pos ⟨hin, fun h => hline.1 (Option.some.inj (hat.symm.trans h)).symm⟩]
    refine hn.trans ?_
    rw [length_cons]
    omega

/-- The loop over the lines is a run over the pieces between newlines. -/
theorem parseLines_spec (steps : ℕ) (before rest : Text) (rules : List Rule)
    (hsteps : rest.length < steps) :
    parseLines (before ++ rest) steps before.length rules =
      some ((rest.splitOn 0x0a#8).foldlM parseLine rules) := by
  induction steps generalizing before rest rules with
  | zero => omega
  | succ steps ih =>
    by_cases hnewline : 0x0a#8 ∈ rest
    · obtain ⟨line, behind, rfl, hline⟩ := eq_append_cons_of_mem hnewline
      have hend := lineEnd_spec before line (0x0a#8 :: behind) hline (by simp)
      have hlengths : (before ++ (line ++ 0x0a#8 :: behind)).length =
          before.length + line.length + 1 + behind.length := by
        simp only [length_append, length_cons]
        omega
      have hleft : (before ++ (line ++ 0x0a#8 :: behind)).length - before.length =
          (line ++ 0x0a#8 :: behind).length := by
        rw [length_append]
        omega
      have hslice := slice_append before line (0x0a#8 :: behind)
      rw [append_assoc] at hslice
      rw [parseLines, if_pos (by omega)]
      simp only [hleft, hend, hslice]
      rw [if_pos (by omega), splitOn_append_cons hline, foldlM_cons]
      cases hparse : parseLine rules line with
      | error error => rfl
      | ok next =>
        have hr := ih (before ++ line ++ [0x0a#8]) behind next (by
          rw [length_append, length_cons] at hsteps
          omega)
        simp only [append_assoc, singleton_append, length_append,
          length_singleton, ← add_assoc] at hr
        exact hr
    rw [splitOn_eq_singleton hnewline]
    by_cases hr : rest = []
    · subst hr
      rw [parseLines, if_neg (by simp)]
      rfl
    have hpos := length_pos_of_ne_nil hr
    have hend := lineEnd_spec before rest [] hnewline (by simp)
    have hslice := slice_append before rest []
    rw [append_nil] at hend hslice
    have hleft : (before ++ rest).length - before.length = rest.length := by
      rw [length_append]
      omega
    rw [parseLines, if_pos (by rw [length_append]; omega)]
    simp only [hleft, hend, hslice]
    rw [if_neg (by rw [length_append]; omega)]
    change _ = some (parseLine rules rest >>= pure)
    cases hparse : parseLine rules rest with
    | error error => rfl
    | ok next =>
      have hfinal := ih (before ++ rest) [] next (by
        rw [length_nil]
        omega)
      rw [append_nil] at hfinal
      exact hfinal

theorem parseManifest_eq (hsize : storage.length ≤ maximumDocumentBytes) :
    parseManifest (some storage) = some ((storage.splitOn 0x0a#8).foldlM parseLine []) := by
  have hread : readFile (some storage) = some storage := by
    unfold readFile
    rw [Option.filter_some, if_pos (by simpa using hsize)]
  unfold parseManifest
  rw [hread]
  exact parseLines_spec (storage.length + 1) [] storage [] (Nat.lt_succ_self _)

/-- The rules of a manifest that is accepted. -/
theorem parseManifest_ok (hsize : storage.length ≤ maximumDocumentBytes) (rules : List Rule) :
    parseManifest (some storage) = some (.ok rules) ↔
      Forall₂ RuleLine (ruleLines storage) rules ∧ rules.length ≤ maximumRules ∧
        Ordered rules := by
  have hstart : Ordered [] := Pairwise.nil
  rw [parseManifest_eq hsize, Option.some_inj, foldlM_parseLine _ hstart (Nat.zero_le _)]
  constructor
  · rintro ⟨added, hadded, rfl, hlen, hord⟩
    exact ⟨hadded, hlen, hord⟩
  · rintro ⟨hadded, hlen, hord⟩
    exact ⟨rules, hadded, rfl, hlen, hord⟩

/-- The workload and metric a line gives. -/
def lineKey (line : Text) : Text × Text :=
  ((line.splitOn 0x09#8).getD 0 [], (line.splitOn 0x09#8).getD 1 [])

theorem RuleLine.key {rule : Rule} (h : RuleLine line rule) : lineKey line = rule.key := by
  obtain ⟨direction, allowed, noise, mode, h⟩ := h
  unfold lineKey
  rw [h.fields]
  rfl

theorem map_lineKey {lines : List Text} (h : Forall₂ RuleLine lines rules) :
    lines.map lineKey = rules.map Rule.key := by
  induction h with
  | nil => rfl
  | cons hrule _ ih => rw [map_cons, map_cons, hrule.key, ih]

theorem exists_rules (lines : List Text) :
    (∃ rules, Forall₂ RuleLine lines rules) ↔ ∀ line ∈ lines, ∃ rule, RuleLine line rule := by
  constructor
  · rintro ⟨rules, h⟩
    induction h with
    | nil => exact forall_mem_nil _
    | cons hrule _ ih => exact forall_mem_cons.mpr ⟨⟨_, hrule⟩, ih⟩
  intro h
  induction lines with
  | nil => exact ⟨[], Forall₂.nil⟩
  | cons line lines ih =>
    obtain ⟨⟨rule, hrule⟩, hlines⟩ := forall_mem_cons.mp h
    obtain ⟨rules, hrules⟩ := ih hlines
    exact ⟨rule :: rules, Forall₂.cons hrule hrules⟩

/-- A manifest is accepted when each of its lines holds a rule, in the order of their keys, and
gives these rules and no others. -/
theorem parseManifest_iff_ruleLines (storage : Text) (hsize : storage.length ≤ 262144) :
    (∃ result, parseManifest (some storage) = some result) ∧
    ((∃ rules, parseManifest (some storage) = some (.ok rules)) ↔
      (∀ line ∈ ruleLines storage, ∃ rule, RuleLine line rule) ∧ (ruleLines storage).length ≤ 128 ∧
        ((ruleLines storage).map lineKey).Pairwise KeyBefore) ∧
    (∀ rules, parseManifest (some storage) = some (.ok rules) →
      Forall₂ RuleLine (ruleLines storage) rules ∧ (rules.map Rule.key).Nodup) := by
  refine ⟨⟨_, parseManifest_eq hsize⟩, ⟨?_, ?_⟩, ?_⟩
  · rintro ⟨rules, h⟩
    obtain ⟨hlines, hlength, hordered⟩ := (parseManifest_ok hsize rules).mp h
    refine ⟨(exists_rules _).mp ⟨rules, hlines⟩, ?_, ?_⟩
    · rw [hlines.length_eq]
      exact hlength
    · rw [map_lineKey hlines]
      exact hordered
  · rintro ⟨hvalid, hlength, hordered⟩
    obtain ⟨rules, hlines⟩ := (exists_rules _).mpr hvalid
    refine ⟨rules, (parseManifest_ok hsize rules).mpr ⟨hlines, ?_, ?_⟩⟩
    · rw [← hlines.length_eq]
      exact hlength
    unfold Ordered
    rw [← map_lineKey hlines]
    exact hordered
  · intro rules h
    obtain ⟨hlines, _, hordered⟩ := (parseManifest_ok hsize rules).mp h
    exact ⟨hlines, hordered.imp KeyBefore.ne⟩

/-- A comment, a rule that ends with a carriage return, and no newline at the end. -/
def sampleManifest : Text :=
  ascii "# rules\nkv\tcpu_time_ns\tlower\t5\t1.5\t0123456789abcdef\thard\r"

def sampleRule : Rule :=
  { workload := ascii "kv"
    metric := ascii "cpu_time_ns"
    allowedRegressionPpm := 50000
    noiseBandPpm := 15000
    referenceEnvironment := ascii "0123456789abcdef"
    hard := true }

theorem parseManifest_iff_ruleLines_sample : sampleManifest.length ≤ 262144 ∧
      ∃ rules, parseManifest (some sampleManifest) = some (.ok rules) := by
  have hsize : sampleManifest.length ≤ 262144 := by decide +kernel
  have hlines : ruleLines sampleManifest =
      [ascii "kv\tcpu_time_ns\tlower\t5\t1.5\t0123456789abcdef\thard"] := by decide +kernel
  refine ⟨hsize, (parseManifest_iff_ruleLines sampleManifest hsize).2.1.mpr ?_⟩
  rw [hlines]
  refine ⟨?_, by decide, pairwise_singleton _ _⟩
  intro line hline
  cases mem_singleton.mp hline
  refine ⟨sampleRule, ascii "lower", ascii "5", ascii "1.5", ascii "hard", ?_⟩
  constructor <;> decide +kernel

end Laghu.Evaluator
