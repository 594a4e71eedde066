import Laghu.FallibleSteps
import Laghu.Postorder

/-!
The feature registry of the build: feature ids with what they depend on and conflict with,
and the resolution of a request. The resolution marks features in global properties while it
visits dependencies depth first, and appends a feature once all its dependencies are there.

A fatal error ends the configuration; `none` stands for a recursion deeper than is allowed.
-/

namespace Laghu.FeatureRegistry

open FallibleSteps

def featureIds : List String :=
  ["core", "tls", "http2", "http3", "structured_data", "async_dns", "regex", "compression_zlib",
    "compression_brotli", "compression_zstd", "geoip", "otlp", "idna", "password_auth"]

/-- The properties of a feature that the resolution reads. -/
inductive Property
  | depends
  | conflicts
  deriving DecidableEq

def Property.text : Property → String
  | .depends => "DEPENDS"
  | .conflicts => "CONFLICTS"

/-- The properties are global: they are there for every id, empty where nothing was declared. -/
structure Registry where
  ids : List String
  core_known : "core" ∈ ids
  values : Property → String → List String

inductive Visit
  | fresh
  | visiting
  | done
  deriving DecidableEq

/-- The global properties that the resolution writes. -/
structure World where
  visit : String → Visit := fun _ => .fresh
  effectiveWorking : List String := []

abbrev Configure (α : Type) := Action World String α

def failed (id rule : String) : String :=
  "Laghu feature registry failed: feature=" ++ id ++ " rule=" ++ rule

/-- `laghu_declare_feature`: the declaration replaces an earlier one. -/
def declareFeature (r : Registry) (id : String) (depends conflicts : List String) :
    Except String Registry :=
  if id ∈ r.ids then
    .ok { r with
      values := fun name other =>
        if other = id then
          match name with
          | .depends => depends
          | .conflicts => conflicts
        else r.values name other }
  else .error (failed id "undeclared_feature")

def undeclared : Registry := ⟨featureIds, List.mem_cons_self .., fun _ _ => []⟩

/-- `laghu_feature_registry_initialize`. -/
def registryInitialize : Except String Registry := do
  let r ← declareFeature undeclared "core" [] []
  let r ← declareFeature r "tls" [] []
  let r ← declareFeature r "http2" [] []
  let r ← declareFeature r "http3" ["tls"] []
  let r ← declareFeature r "structured_data" [] []
  let r ← declareFeature r "async_dns" [] []
  let r ← declareFeature r "regex" [] []
  let r ← declareFeature r "compression_zlib" [] []
  let r ← declareFeature r "compression_brotli" [] []
  let r ← declareFeature r "compression_zstd" [] []
  let r ← declareFeature r "geoip" [] []
  let r ← declareFeature r "otlp" [] []
  let r ← declareFeature r "idna" [] []
  declareFeature r "password_auth" [] []

theorem declareFeature_nothing {r : Registry} {id : String} (hknown : id ∈ r.ids)
    (he : ∀ name, r.values name id = []) : declareFeature r id [] [] = .ok r := by
  unfold declareFeature
  rw [if_pos hknown]
  congr 2
  funext name other
  split
  · rename_i heq
    rw [heq, he]
    cases name <;> rfl
  · rfl

/-- HTTP/3 needs TLS; nothing else needs or excludes anything. -/
def declared : Registry :=
  { undeclared with
    values := fun name id => if name = .depends ∧ id = "http3" then ["tls"] else [] }

theorem registryInitialize_eq : registryInitialize = .ok declared := by
  have hhttp3 : declareFeature undeclared "http3" ["tls"] [] = .ok declared := by
    unfold declareFeature
    rw [if_pos (by decide)]
    congr 2
    funext name other
    change (if other = "http3" then _ else []) = _
    cases name <;> simp
  have hpre (id : String) (hknown : id ∈ featureIds) :
      declareFeature undeclared id [] [] = .ok undeclared :=
    declareFeature_nothing hknown fun _ => rfl
  have ha (id : String) (hknown : id ∈ featureIds) (ho : id ≠ "http3") :
      declareFeature declared id [] [] = .ok declared :=
    declareFeature_nothing hknown fun name => if_neg fun h => ho h.2
  unfold registryInitialize
  simp only [featureIds, List.forall_mem_cons] at hpre ha
  simp [bind, Except.bind, hpre, ha, hhttp3]
section

variable (r : Registry)

def requireKnown (id rule : String) : Configure Unit := check (id ∈ r.ids) (failed id rule)

def property (id : String) (name : Property) : Configure (List String) := do
  requireKnown r id "unknown_feature"
  pure (r.values name id)

def validateRegistry : Configure Unit :=
  r.ids.forM fun feature =>
    [Property.depends, Property.conflicts].forM fun name => do
      let values ← property r feature name
      values.forM fun value => do
        requireKnown r value name.text
        check (value ≠ feature)
          ("Laghu feature registry failed: feature=" ++ feature ++ " " ++ name.text ++ "=" ++
            value ++ " rule=self_reference")

def getVisit (feature : String) : Configure Visit := perform fun w => some (w.visit feature, w)

def setVisit (feature : String) (mark : Visit) : Configure Unit := perform fun w =>
  some ((), { w with visit := fun other => if other = feature then mark else w.visit other })

def appendEffective (feature : String) : Configure Unit := perform fun w =>
  some ((), { w with effectiveWorking := w.effectiveWorking ++ [feature] })

/-- `laghu_feature_visit`; `depth` is how many visits may be nested. -/
def visit : ℕ → String → Configure Unit
  | 0, _ => fun _ => none
  | depth + 1, feature => do
    let state ← getVisit feature
    check (state ≠ .visiting) (failed feature "dependency_cycle")
    if state = .done then pure ()
    else
      setVisit feature .visiting
      let dependencies ← property r feature .depends
      dependencies.forM fun dependency => do
        let dependencyState ← getVisit dependency
        check (dependencyState ≠ .visiting)
          ("Laghu feature registry failed: feature=" ++ feature ++ " dependency=" ++ dependency ++
            " rule=dependency_cycle")
        visit depth dependency
      setVisit feature .done
      appendEffective feature

/-- The arguments of `laghu_resolve_features`, as they are parsed. -/
structure Selection where
  unparsedArguments : String := ""
  diagnosticPrefix : String := ""
  requested : List String
  available : List String

/-- A value that counts as false in a condition. -/
def isOff (value : String) : Bool :=
  value.toUpper ∈ ["", "0", "OFF", "NO", "N", "FALSE", "IGNORE"] || value = "NOTFOUND" ||
    value.endsWith "-NOTFOUND"

/-- The message under the caller's own heading, if there is one. -/
def diagnostic (selection : Selection) (detail : String) : String :=
  if isOff selection.diagnosticPrefix then "Laghu feature registry failed: " ++ detail
  else selection.diagnosticPrefix ++ ": " ++ detail

/-- The ids that are requested: expanding the list drops its empty elements. -/
def Selection.ids (selection : Selection) : List String :=
  selection.requested.filter fun id => id ≠ ""

def withCore (requested : List String) : List String :=
  if "core" ∈ requested then requested else "core" :: requested

def checkRequested (selection : Selection) : List String → List String → Configure Unit
  | _, [] => pure ()
  | seen, feature :: rest => do
    check (feature ∈ r.ids)
      (diagnostic selection ("feature=" ++ feature ++ " rule=unknown_feature"))
    check (feature ∉ seen)
      (diagnostic selection ("feature=" ++ feature ++ " rule=duplicate_request"))
    checkRequested selection (seen ++ [feature]) rest

/-- `list(REMOVE_DUPLICATES)`: the first of equal elements stays. -/
def removeDuplicates (values : List String) : List String :=
  values.foldl (fun kept value => if value ∈ kept then kept else kept ++ [value]) []

def reset : Configure Unit := perform fun w =>
  some ((), { visit := fun feature => if feature ∈ r.ids then .fresh else w.visit feature })

def effectiveWorking : Configure (List String) := perform fun w => some (w.effectiveWorking, w)

def checkEffective (selection : Selection) (effective : List String) : Configure Unit :=
  effective.forM fun feature => do
    check (feature ∈ selection.available)
      (diagnostic selection ("feature=" ++ feature ++ " rule=feature_unavailable"))
    let conflicts ← property r feature .conflicts
    conflicts.forM fun conflict =>
      check (conflict ∉ effective)
        (diagnostic selection
          ("feature=" ++ feature ++ " conflict=" ++ conflict ++ " rule=feature_conflict"))

def resolveFeatures (depth : ℕ) (selection : Selection) : Configure (List String) := do
  check (isOff selection.unparsedArguments) "Laghu feature registry failed: rule=invalid_selection"
  validateRegistry r
  let requested := withCore selection.ids
  checkRequested r selection [] requested
  selection.available.forM fun feature => requireKnown r feature "unknown_available_feature"
  reset r
  requested.forM fun feature => visit r depth feature
  let effective := removeDuplicates (← effectiveWorking)
  checkEffective r selection effective
  pure effective

end

end Laghu.FeatureRegistry
